import Mos.Fs.Resize
import Mos.User.Open

/-!
# Truncating files (`user/lib/file.c`, `fs/serv.c`)

The size of an open file is kept three times: in the descriptor, by the server, and in the
pages that are mapped. `ftruncate` is run here together with the server that answers it.
-/

namespace Mos.User

open Fs (Reply Err Request Server Replied Settled Resized sizeAt MAXFILESIZE DEVFILE_ID)
open Lib (Bytes wp wp_mono wp_ite provided)
open Lib.Proc (Trace World)

/-! ## Answers of the server -/

/-- A process, and what the kernel answers while the server serves a request of it. No request is made
twice in one call, and memory can only run out. -/
structure Peer where
  envid : Nat
  kernel : Request → World Fs.Call Reply
  answers : ∀ req t c, (Fs.quiet Fs.Any True).answers c (kernel req t c)

/-- What arrives from a run of the server. The kernel adds `PTE_V` to the permission. -/
def received (s : Server) (t : Trace Fs.Call Reply) : Option Answer :=
  t.findSome? fun e => match e with
    | ⟨.ipcSend _ val srcva perm, _⟩ => some ⟨val, PTE_V ||| perm, pageAt s srcva⟩
    | _ => none

/-- What arrives from a run in which the server stops. When there is no page table for a page that is
sent, the kernel has woken the process already: it finds the value and no page, and `ipc_send` of
the server fails. -/
def undelivered (t : Trace Fs.Call Reply) : Option Answer :=
  t.findSome? fun e => match e with
    | ⟨.ipcSend _ val srcva perm, r⟩ =>
      if srcva ≠ 0 ∧ (r : Int) = Err.noMem.code then some ⟨val, PTE_V ||| perm, none⟩ else none
    | _ => none

/-- The answer, the next state of the server and whether it goes on, unless nothing arrives. -/
def Peer.respond (p : Peer) (s : Server) (req : Request) : Option (Answer × Server × Bool) :=
  match (Fs.serve p.envid req).run (p.kernel req) s with
  | (t, .ok (), s') => (received s' t).map (·, s', true)
  | (t, .error _, s') => (undelivered t).map (·, s', false)

/-! ## `ftruncate` and the server -/

structure Session where
  client : Client
  server : Server
  /-- The server has not stopped. -/
  serving : Bool

inductive Halt where
  | stopped (e : Stop)
  /-- The server has stopped: the process waits for ever, or its own `ipc_send` fails. -/
  | unanswered
  deriving DecidableEq, Repr

namespace Session

abbrev Joint := EStateM Halt Session

/-- The process does something by itself. -/
def own {α : Type} (x : Program α) : Joint α :=
  Lib.zoom client (fun σ c => { σ with client := c }) .stopped x

variable (p : Peer)

def ask (req : Request) : Joint Answer := do
  let σ ← get
  if σ.serving then
    match p.respond σ.server req with
    | some (a, s, up) =>
      modify fun σ => { σ with server := s, serving := up }
      return a
    | none => throw .unanswered
  else
    throw .unanswered

def fsipcSetSize (fileid size : Nat) : Joint Int :=
  return (← ask p (.setSize fileid.toUInt32 size.toUInt32)).val

def fsipcMap (fileid offset dstva : Nat) : Joint Int := do
  let a ← ask p (.map fileid.toUInt32 offset.toUInt32)
  own (User.fsipcMap ⟨fun _ _ => a, fun _ _ => a.val⟩ fileid offset dstva)

/-- The first loop of `ftruncate` from `i` on, for `n` turns. -/
def mapFrom (fileid oldsize va : Nat) : Nat → Nat → Joint Int
  | 0, _ => return 0
  | n + 1, i => do
    let r ← fsipcMap p fileid i (va + i)
    if r < 0 then
      let r' ← fsipcSetSize p fileid oldsize
      return if r' < 0 then r' else r
    else
      mapFrom fileid oldsize va n (i + PTMAP)

/-- The end of `ftruncate`, after the server has set the size. -/
def remap (fileid oldsize size va : Nat) : Joint Int := do
  let r ← mapFrom p fileid oldsize va (turns oldsize size) (round oldsize)
  if r < 0 then
    return r
  else
    own (unmapFrom va (turns size oldsize) (round size))
    return 0

def ftruncate (fdnum size : Nat) : Joint Int := do
  if size > MAXFILESIZE then
    return Err.noDisk.code
  else
    match ← own (fdLookup fdnum) with
    | .error e => return e.code
    | .ok fd =>
      if (← own (loadWord (devIdAt fd))) ≠ DEVFILE_ID then
        return Err.inval.code
      else
        let fileid ← own (loadWord (fileidAt fd))
        let oldsize ← own (loadWord (fsizeAt fd))
        own (storeWord (fsizeAt fd) size)
        let r ← fsipcSetSize p fileid size
        if r < 0 then return r else remap p fileid oldsize size (fd2data fd)

/-! ## The three sizes -/

/-- The `struct File` of the server that the descriptor `i` is open on. -/
def file (σ : Session) (i : Nat) : Nat := σ.server.fileOf (σ.client.fileid i)

end Session

/-- The page `k` of the window of the descriptor `i` is mapped. -/
def Client.has (s : Client) (i k : Nat) : Bool := s.mapped ((index2data i + k * PTMAP) / PTMAP)

/-- All three are `v`. -/
structure Session.Agrees (σ : Session) (i v : Nat) : Prop where
  client : σ.client.size i = v
  server : σ.server.mem.word (sizeAt (σ.file i)) = v
  pages : ∀ k < MAXFILESIZE / PTMAP, σ.client.has i k = decide (k * PTMAP < v)

/-- The descriptor `i` is open on a file of the server, which is in memory and apart from the bitmap,
from free blocks and from its index block. -/
structure Session.IsOpen (n : Nat) (σ : Session) (i : Nat) : Prop where
  serving : σ.serving = true
  file : IsFile σ.client i
  server : Settled n (σ.file i) σ.server.content σ.server
  agrees : σ.Agrees i (σ.client.size i)

/-- From `s` on, the server sends each of the `n` pages from `i` on, or it stops. It does not stop
with the last page, because the process would go on without it. -/
def Peer.Sends (p : Peer) (fileid oldsize : Nat) : Nat → Nat → Server → Prop
  | 0, _, _ => True
  | n + 1, i, s =>
    match p.respond s (.map fileid.toUInt32 i.toUInt32) with
    | none => True
    | some (a, s', up) =>
      if a.val < 0 then p.respond s' (.setSize fileid.toUInt32 oldsize.toUInt32) = none
      else if up then p.Sends fileid oldsize n (i + PTMAP) s'
      else n ≠ 0

/-- From `s` on, the server sets the size and sends each new page, or it stops. -/
def Peer.Grants (p : Peer) (fileid oldsize size : Nat) (s : Server) : Prop :=
  match p.respond s (.setSize fileid.toUInt32 size.toUInt32) with
  | none => True
  | some (a, s', _) => 0 ≤ a.val ∧ p.Sends fileid oldsize (turns oldsize size) (round oldsize) s'

/-- Nothing is asked for, or nothing is refused. -/
def Session.Unrefused (p : Peer) (σ : Session) (i size : Nat) : Prop :=
  MAXFILESIZE < size ∨ size = σ.client.size i ∨
    p.Grants (σ.client.fileid i) (σ.client.size i) size σ.server

/-! ## What is received -/

theorem received_replied {envid srcva perm : Nat} {val : Int} {t : Trace Fs.Call Reply} (s : Server)
    (h : Replied envid val srcva perm t) : received s t = some ⟨val, PTE_V ||| perm, pageAt s srcva⟩ := by
  obtain ⟨l, r, rfl, hl⟩ := h
  have hnone : received s l = none := by
    unfold Fs.sends at hl
    unfold received
    rw [List.findSome?_eq_none_iff]
    intro e he
    have := List.filterMap_eq_nil_iff.mp hl e he
    rcases e with ⟨_ | _ | _ | _, r⟩
    · rfl
    · rfl
    · rfl
    · exact nomatch this
  unfold received at hnone ⊢
  rw [List.findSome?_append, hnone]
  rfl

theorem undelivered_unsent {t : Trace Fs.Call Reply} (h : Fs.sends t = []) : undelivered t = none := by
  unfold Fs.sends at h
  unfold undelivered
  rw [List.findSome?_eq_none_iff]
  intro e he
  have := List.filterMap_eq_nil_iff.mp h e he
  rcases e with ⟨_ | _ | _ | _, r⟩
  · rfl
  · rfl
  · rfl
  · exact nomatch this

theorem undelivered_replied {envid srcva perm : Nat} {val : Int} {t : Trace Fs.Call Reply}
    (h : Replied envid val srcva perm t) : ∃ r : Int, undelivered t =
      if srcva ≠ 0 ∧ r = Err.noMem.code then some ⟨val, PTE_V ||| perm, none⟩ else none := by
  obtain ⟨l, r, rfl, hl⟩ := h
  have hnone := undelivered_unsent hl
  refine ⟨r, ?_⟩
  unfold undelivered at hnone ⊢
  rw [List.findSome?_append, hnone, Option.none_or, List.findSome?_singleton]

section

variable {p : Peer} {n f i : Nat} {fileid v : UInt32} {s s' : Server} {a : Answer} {c : Bytes} {up : Bool}

/-- An answer comes from a run in which the calls are answered as expected. -/
theorem Peer.respond_run {req : Request} (h : p.respond s req = some (a, s', up)) :
    ∃ t x, (Fs.serve p.envid req).run (p.kernel req) s = (t, x, s') ∧ Fs.memory.Holds t ∧
      (x = .ok () ∧ up = true ∧ received s' t = some a ∨
        (∃ e, x = .error e) ∧ up = false ∧ undelivered t = some a) := by
  have hanswers := Lib.Proc.run_answers (p.answers req) (Fs.serve p.envid req s) (t := [])
    fun _ he => nomatch he
  unfold Peer.respond at h
  rcases hrun : (Fs.serve p.envid req).run (p.kernel req) s with ⟨t, e | ⟨⟩, s₁⟩
  · rw [show (Fs.serve p.envid req s).run (p.kernel req) [] = (t, .error e, s₁) from hrun] at hanswers
    rw [hrun] at h
    obtain ⟨a₁, ha, heq⟩ := Option.map_eq_some_iff.mp h
    obtain ⟨rfl, hrest⟩ := Prod.mk.inj heq
    obtain ⟨rfl, rfl⟩ := Prod.mk.inj hrest
    exact ⟨t, _, rfl, hanswers, .inr ⟨⟨e, rfl⟩, rfl, ha⟩⟩
  · rw [show (Fs.serve p.envid req s).run (p.kernel req) [] = (t, .ok (), s₁) from hrun] at hanswers
    rw [hrun] at h
    obtain ⟨a₁, ha, heq⟩ := Option.map_eq_some_iff.mp h
    obtain ⟨rfl, hrest⟩ := Prod.mk.inj heq
    obtain ⟨rfl, rfl⟩ := Prod.mk.inj hrest
    exact ⟨t, _, rfl, hanswers, .inl ⟨rfl, rfl, ha⟩⟩

theorem Peer.respond_setSize (hs : Settled n (s.fileOf fileid.toNat) c s)
    (h : p.respond s (.setSize fileid v) = some (a, s', up)) :
    up = true ∧ Resized fileid.toNat v.toNat s a.val s' := by
  obtain ⟨t, x, hrun, ht, ha⟩ := Peer.respond_run h
  have hspec : provided Fs.memory (Fs.serveSetSize p.envid fileid.toNat v.toNat) _ _ s [] :=
    Fs.serveSetSize_spec (hs.anchored.cached 128 (by omega)) hs.anchored.aligned
  rcases ha with ⟨rfl, rfl, ha⟩ | ⟨⟨e, rfl⟩, -, ha⟩
  · obtain ⟨val, hval, hres⟩ := Lib.provided_run_ok hspec hrun (fun _ he => nomatch he) ht
    rw [received_replied s' hval] at ha
    rw [← Option.some.inj ha]
    exact ⟨rfl, hres⟩
  · -- The server has sent no page.
    rcases Lib.provided_run_error hspec hrun (fun _ he => nomatch he) ht with hno | ⟨val, hval⟩
    · rw [undelivered_unsent hno] at ha
      exact nomatch ha
    · obtain ⟨r, hr⟩ := undelivered_replied hval
      rw [hr, if_neg fun h => h.1 rfl] at ha
      exact nomatch ha

/-- An error and no page, or zero and a page with the right permission. When the server has stopped
there is no page. -/
def Answer.Proper (a : Answer) (up : Bool) : Prop :=
  up = true ∧ a.val < 0 ∧ a.page = none ∨
    a.val = 0 ∧ permOk a.perm = true ∧ (up = true ∧ (∃ page, a.page = some page) ∨
      up = false ∧ a.page = none)

theorem serveMap_spec {envid fileid offset : Nat} (hs : Settled n (s.fileOf fileid) c s) :
    provided Fs.memory (Fs.serveMap envid fileid offset)
      (fun _ s' t' => Settled n (s.fileOf fileid) c s' ∧ s'.opentab = s.opentab ∧
        ∃ a, received s' t' = some a ∧ a.Proper true)
      (fun _ _ t' => ∀ a, undelivered t' = some a → a.Proper false) s [] := by
  have hrefuse : ∀ {s₁ l} (e : Err), Fs.sends l = [] → Settled n (s.fileOf fileid) c s₁ →
      s₁.opentab = s.opentab → provided Fs.memory (Fs.replyError envid e)
      (fun _ s' t' => Settled n (s.fileOf fileid) c s' ∧ s'.opentab = s.opentab ∧
        ∃ a, received s' t' = some a ∧ a.Proper true)
      (fun _ _ t' => ∀ a, undelivered t' = some a → a.Proper false) s₁ l := by
    intro s₁ l e hl hs₁ htab
    refine Lib.provided_mono (Fs.ipcSend_replied (Q := (· = s₁)) hl rfl) ?_ fun _ _ t' _ ht' a ha => ?_
    · rintro _ s' t' - ⟨ht', rfl⟩
      have hneg : e.code < 0 := by cases e <;> decide
      exact ⟨hs₁, htab, _, received_replied s' ht',
        .inl ⟨rfl, hneg, (pageAt_eq_none (s := s')).mpr rfl⟩⟩
    · obtain ⟨r, hr⟩ := undelivered_replied ht'
      rw [hr, if_neg fun h => h.1 rfl] at ha
      exact nomatch ha
  refine Fs.withOpen_spec (fun _ => hrefuse _ rfl hs rfl) (fun _ _ => hrefuse _ rfl hs rfl) fun r _ _ => ?_
  rw [Lib.provided_bind]
  have hget := Lib.provided_and (Fs.fileGetBlock_settled (t := [⟨.pageref fileid, r⟩]) hs (offset / Fs.BLOCK_SIZE))
    (Lib.provided_and
      (Lib.provided_within Fs.memory_answers (Fs.within_fileGetBlock (K := Fs.Any) (fun _ _ => trivial) _) _ _)
      (Lib.provided_within (F := silent) Fs.memory_answers (page_fileGetBlock _ _) _ _))
  refine Lib.provided_mono hget ?_ fun _ _ t₁ _ hstop a ha => ?_
  · rintro (e | blk) s₁ t₁ - ⟨hs₁, ⟨⟨l, rfl, hl⟩, hk, -⟩, -, -, hblk⟩
    · exact hrefuse e (Fs.unsent_quiet hl) hs₁ hk.opentab
    have hperm : permOk (PTE_V ||| (Fs.PTE_D ||| Fs.PTE_LIBRARY)) = true := by decide
    refine Lib.provided_mono (Fs.ipcSend_replied (Q := (· = s₁)) (Fs.unsent_quiet hl) rfl) ?_
      fun _ _ t' _ ht' a ha => ?_
    · rintro _ s' t' - ⟨ht', rfl⟩
      refine ⟨hs₁, hk.opentab, _, received_replied s' ht', .inr ⟨rfl, hperm, .inl ⟨rfl, ?_⟩⟩⟩
      exact Option.ne_none_iff_exists'.mp fun h => hblk blk rfl (pageAt_eq_none.mp h)
    · obtain ⟨r', hr⟩ := undelivered_replied ht'
      rw [hr] at ha
      split at ha
      · rw [← Option.some.inj ha]
        exact .inr ⟨rfl, hperm, .inr ⟨rfl, rfl⟩⟩
      · exact nomatch ha
  · obtain ⟨-, ⟨⟨l, rfl, hl⟩, -⟩, -⟩ := hstop
    have hno : Fs.sends ([⟨.pageref fileid, r⟩] ++ l) = [] := Fs.unsent_quiet hl
    rw [undelivered_unsent hno] at ha
    exact nomatch ha

theorem Peer.respond_map {offset : UInt32} (hs : Settled n (s.fileOf fileid.toNat) c s)
    (h : p.respond s (.map fileid offset) = some (a, s', up)) :
    a.Proper up ∧
      (up = true → Settled n (s.fileOf fileid.toNat) c s' ∧ s'.opentab = s.opentab) := by
  obtain ⟨t, x, hrun, ht, ha⟩ := Peer.respond_run h
  have hspec : provided Fs.memory (Fs.serveMap p.envid fileid.toNat offset.toNat) _ _ s [] :=
    serveMap_spec hs
  rcases ha with ⟨rfl, rfl, ha⟩ | ⟨⟨e, rfl⟩, rfl, ha⟩
  · obtain ⟨hs', htab, a', ha', hproper⟩ := Lib.provided_run_ok hspec hrun (fun _ he => nomatch he) ht
    rw [ha'] at ha
    exact ⟨Option.some.inj ha ▸ hproper, fun _ => ⟨hs', htab⟩⟩
  · have hproper := Lib.provided_run_error hspec hrun (fun _ he => nomatch he) ht a ha
    exact ⟨hproper, fun hup => by cases hup⟩

end

/-! ## The process -/

section

variable {s s' : Client} {i : Nat}

/-- The fields of the descriptor `i` are as they were. -/
structure SameFd (i : Nat) (s s' : Client) : Prop where
  size : s'.size i = s.size i
  fileid : s'.fileid i = s.fileid i

theorem SameFd.refl (i : Nat) (s : Client) : SameFd i s s := ⟨rfl, rfl⟩

theorem SameFd.trans {s'' : Client} (h : SameFd i s s') (h' : SameFd i s' s'') : SameFd i s s'' :=
  ⟨h'.size.trans h.size, h'.fileid.trans h.fileid⟩

theorem sameFd_of_copy (hi : i < MAXFD) {va : Nat} (hva : FILEBASE ≤ va) (m : Bytes)
    (hmem : s'.mem = s.mem.copy va m 0 PTMAP) : SameFd i s s' := by
  have hi' : i < 32 := hi
  have hbase : FILEBASE = 0x60000000 := rfl
  have hfd : index2fd i = 0x5fc00000 + i * 4096 := rfl
  have hword : ∀ a < FILEBASE - 3, s'.mem.word a = s.mem.word a := fun a ha => by
    rw [hmem]
    refine Lib.Bytes.word_congr fun b h1 h2 => ?_
    unfold Lib.Bytes.copy
    rw [if_neg (by omega)]
  refine ⟨hword _ ?_, hword _ ?_⟩
  · unfold fsizeAt
    omega
  · unfold fileidAt
    omega

theorem index2data_page (i k : Nat) :
    (index2data i + k * PTMAP) / PTMAP = index2data i / PTMAP + k := by
  unfold PTMAP
  exact Nat.add_mul_div_right _ _ (by omega)

theorem has_map (s : Client) (page : Bytes) (i j k : Nat) :
    (s.map (index2data i + j * PTMAP) page).has i k = (s.has i k || decide (k = j)) := by
  unfold Client.has Client.map
  simp only [index2data_page]
  by_cases hk : k = j
  · rw [hk, Function.update_self, decide_eq_true rfl, Bool.or_true]
  · rw [Function.update_of_ne (by omega), decide_eq_false hk, Bool.or_false]

theorem has_unmap (s : Client) (i j k : Nat) :
    (s.unmap (index2data i + j * PTMAP)).has i k = (s.has i k && !decide (k = j)) := by
  unfold Client.has Client.unmap
  simp only [index2data_page]
  by_cases hk : k = j
  · rw [hk, Function.update_self, decide_eq_true rfl, Bool.not_true, Bool.and_false]
  · rw [Function.update_of_ne (by omega), decide_eq_false hk, Bool.not_false, Bool.and_true]

/-- The second loop unmaps the pages from `j` on. -/
theorem unmapFrom_spec (hi : i < MAXFD) (n j : Nat) (s : Client) :
    wp (unmapFrom (index2data i) n (j * PTMAP))
      (fun _ s' => SameFd i s s' ∧ ∀ k, s'.has i k = (s.has i k && !decide (j ≤ k ∧ k < j + n)))
      (fun _ _ => False) s := by
  induction n generalizing j s with
  | zero =>
    unfold unmapFrom
    refine (Lib.wp_pure _).mpr ⟨.refl i s, fun k => ?_⟩
    rw [decide_eq_false (by omega), Bool.not_false, Bool.and_true]
  | succ n ih =>
    have hnext : j * PTMAP + PTMAP = (j + 1) * PTMAP := (Nat.succ_mul _ _).symm
    have hva : FILEBASE ≤ index2data i + j * PTMAP := by
      unfold index2data
      omega
    unfold unmapFrom
    rw [Lib.wp_bind, Lib.wp_modify, hnext]
    refine wp_mono (ih (j + 1) _) ?_ fun _ _ => id
    rintro _ s' ⟨hsame, hhas⟩
    refine ⟨(sameFd_of_copy hi hva (fun _ => 0) rfl).trans hsame, fun k => ?_⟩
    rw [hhas, has_unmap]
    by_cases hk : k = j
    · simp [hk]
    · have hiff : (j + 1 ≤ k ∧ k < j + 1 + n) ↔ (j ≤ k ∧ k < j + (n + 1)) := by omega
      simp only [hk, hiff, decide_false, Bool.not_false, Bool.and_true]

/-- A page that has been sent is mapped. The process does not see that there is none. -/
theorem fsipcMap_proper (hi : i < MAXFD) {a : Answer} {up : Bool} (ha : a.Proper up)
    (fileid offset j : Nat) (s : Client) :
    wp (fsipcMap ⟨fun _ _ => a, fun _ _ => a.val⟩ fileid offset (index2data i + j * PTMAP))
      (fun r s' => SameFd i s s' ∧ (up = true ∧ a.val < 0 ∧ r < 0 ∨
        a.val = 0 ∧ r = 0 ∧ (up = true ∧ (∀ k, s'.has i k = (s.has i k || decide (k = j))) ∨
          up = false ∧ ∀ k, s'.has i k = s.has i k)))
      (fun _ _ => False) s := by
  have hva : FILEBASE ≤ index2data i + j * PTMAP := by
    unfold index2data
    omega
  unfold fsipcMap receive
  dsimp only
  rcases ha with ⟨hup, hneg, hpage⟩ | ⟨hzero, hperm, ⟨hup, page, hpage⟩ | ⟨hup, hpage⟩⟩
  · rw [Lib.wp_bind, hpage]
    simp only
    rw [Lib.wp_pure, if_pos hneg, Lib.wp_pure]
    exact ⟨.refl i s, .inl ⟨hup, hneg, hneg⟩⟩
  · rw [Lib.wp_bind, hpage]
    simp only
    rw [Lib.wp_modify, if_neg (by omega), if_pos hperm, Lib.wp_pure]
    exact ⟨sameFd_of_copy hi hva page rfl, .inr ⟨hzero, rfl, .inl ⟨hup, has_map s page i j⟩⟩⟩
  · rw [Lib.wp_bind, hpage]
    simp only
    rw [Lib.wp_pure, if_neg (by omega), if_pos hperm, Lib.wp_pure]
    exact ⟨.refl i s, .inr ⟨hzero, rfl, .inr ⟨hup, fun _ => rfl⟩⟩⟩

end

/-! ## The loops -/

theorem toNat_toUInt32 {k : Nat} (h : k < 2 ^ 32) : k.toUInt32.toNat = k := by
  rw [Nat.toUInt32, UInt32.toNat_ofNat']
  exact Nat.mod_eq_of_lt h

namespace Session

variable {p : Peer} {n i : Nat} {σ : Session}

theorem wp_own {α : Type} {x : Program α} {Q : α → Session → Prop} {E : Halt → Session → Prop} :
    wp (own x) Q E σ ↔ wp x (fun a c => Q a { σ with client := c })
      (fun e c => E (.stopped e) { σ with client := c }) σ.client := Lib.wp_zoom ..

theorem wp_ask {req : Request} {Q : Answer → Session → Prop} {E : Halt → Session → Prop} :
    wp (ask p req) Q E σ ↔
      (∀ a s up, σ.serving = true → p.respond σ.server req = some (a, s, up) →
        Q a { σ with server := s, serving := up }) ∧
      (σ.serving = true → p.respond σ.server req = none → E .unanswered σ) ∧
      (σ.serving = false → E .unanswered σ) := by
  have hrespond : wp (match p.respond σ.server req with
        | some (a, s, up) => do
          modify fun σ => { σ with server := s, serving := up }
          return a
        | none => throw .unanswered) Q E σ ↔
      (∀ a s up, p.respond σ.server req = some (a, s, up) → Q a { σ with server := s, serving := up }) ∧
        (p.respond σ.server req = none → E .unanswered σ) := by
    rcases p.respond σ.server req with _ | ⟨a, s, up⟩
    · simp [Lib.wp_throw]
    · simp only [Lib.wp_bind, Lib.wp_modify, Lib.wp_pure]
      refine ⟨fun h => ⟨fun a' s' up' heq => ?_, fun h => by cases h⟩, fun h => h.1 a s up rfl⟩
      obtain ⟨rfl, hrest⟩ := Prod.mk.inj (Option.some.inj heq)
      obtain ⟨rfl, rfl⟩ := Prod.mk.inj hrest
      exact h
  unfold ask
  rw [Lib.wp_bind, Lib.wp_get, wp_ite, hrespond, Lib.wp_throw, Bool.not_eq_true]
  exact ⟨fun h => ⟨fun a s up hs => (h.1 hs).1 a s up, fun hs => (h.1 hs).2, h.2⟩,
    fun h => ⟨fun hs => ⟨fun a s up => h.1 a s up hs, h.2.1 hs⟩, h.2.2⟩⟩

theorem wp_fsipcSetSize {fileid size : Nat} {Q : Int → Session → Prop} {E : Halt → Session → Prop} :
    wp (fsipcSetSize p fileid size) Q E σ ↔
      (∀ a s up, σ.serving = true →
        p.respond σ.server (.setSize fileid.toUInt32 size.toUInt32) = some (a, s, up) →
        Q a.val { σ with server := s, serving := up }) ∧
      (σ.serving = true →
        p.respond σ.server (.setSize fileid.toUInt32 size.toUInt32) = none → E .unanswered σ) ∧
      (σ.serving = false → E .unanswered σ) := by
  unfold fsipcSetSize
  rw [Lib.wp_bind, wp_ask]
  simp only [Lib.wp_pure]

/-- After the first `j` pages have been mapped, `σ` has come from `σ₀`. -/
structure Extended (n i : Nat) (c : Bytes) (σ₀ σ : Session) (j : Nat) : Prop where
  serving : σ.serving = true
  fd : SameFd i σ₀.client σ.client
  opentab : σ.server.opentab = σ₀.server.opentab
  settled : Settled n (σ₀.file i) c σ.server
  pages : ∀ k < MAXFILESIZE / PTMAP, σ.client.has i k = decide (k < j)

/-- A turn of the first loop. -/
theorem fsipcMap_spec {c : Bytes} {σ₀ : Session} {j : Nat} (hi : i < MAXFD) (h : Extended n i c σ₀ σ j) :
    wp (fsipcMap p (σ₀.client.fileid i) (j * PTMAP) (index2data i + j * PTMAP))
      (fun r σ' => ∃ a, p.respond σ.server (.map (σ₀.client.fileid i).toUInt32 (j * PTMAP).toUInt32) =
          some (a, σ'.server, σ'.serving) ∧ SameFd i σ₀.client σ'.client ∧
        (σ'.serving = true ∧ a.val < 0 ∧ r < 0 ∨
          a.val = 0 ∧ r = 0 ∧ (Extended n i c σ₀ σ' (j + 1) ∨
            σ'.serving = false ∧ ∀ k, σ'.client.has i k = σ.client.has i k)))
      (fun _ _ =>
        p.respond σ.server (.map (σ₀.client.fileid i).toUInt32 (j * PTMAP).toUInt32) = none) σ := by
  have hfileid : (σ₀.client.fileid i).toUInt32.toNat = σ₀.client.fileid i :=
    toNat_toUInt32 (Lib.Bytes.word_lt _ _)
  have hfile : σ₀.file i = σ.server.fileOf (σ₀.client.fileid i).toUInt32.toNat := by
    unfold file Server.fileOf
    rw [hfileid, h.opentab]
  unfold fsipcMap
  rw [Lib.wp_bind, wp_ask]
  refine ⟨fun a s up _ hrespond => ?_, fun _ => id, fun hno => absurd (hno.symm.trans h.serving) nofun⟩
  obtain ⟨hproper, hup⟩ := Peer.respond_map (hfile ▸ h.settled) hrespond
  rw [wp_own]
  refine wp_mono (fsipcMap_proper hi hproper _ _ j _) ?_ fun _ _ h => h.elim
  rintro r s' ⟨hsame, hr⟩
  refine ⟨a, hrespond, h.fd.trans hsame, hr.imp_right fun ⟨hzero, hr, hhas⟩ => ⟨hzero, hr, ?_⟩⟩
  refine hhas.imp (fun ⟨htrue, hhas⟩ => ?_) id
  obtain ⟨hs, htab⟩ := hup htrue
  refine ⟨htrue, h.fd.trans hsame, htab.trans h.opentab, hfile ▸ hs, fun k hk => ?_⟩
  rw [hhas, h.pages k hk, ← Bool.decide_or]
  exact decide_eq_decide.mpr (by omega)

theorem mapFrom_stopped {fileid oldsize va m k : Nat} (hstop : σ.serving = false) (hm : m ≠ 0)
    {Q : Int → Session → Prop} {E : Halt → Session → Prop} (hE : E .unanswered σ) :
    wp (mapFrom p fileid oldsize va m k) Q E σ := by
  obtain ⟨m, rfl⟩ := Nat.exists_eq_succ_of_ne_zero hm
  unfold mapFrom fsipcMap
  rw [Lib.wp_bind, Lib.wp_bind, wp_ask]
  refine ⟨fun _ _ _ hs => ?_, fun hs => ?_, fun _ => hE⟩
  · exact absurd (hstop.symm.trans hs) nofun
  · exact absurd (hstop.symm.trans hs) nofun

/-- The first loop maps all pages if they are sent. Otherwise it ends with an error, or without the
last page. -/
theorem mapFrom_spec {c : Bytes} {σ₀ : Session} {m j oldsize : Nat} (hi : i < MAXFD)
    (hfits : j + m ≤ MAXFILESIZE / PTMAP) (h : Extended n i c σ₀ σ j) :
    wp (mapFrom p (σ₀.client.fileid i) oldsize (index2data i) m (j * PTMAP))
      (fun r σ' => SameFd i σ₀.client σ'.client ∧
        (p.Sends (σ₀.client.fileid i) oldsize m (j * PTMAP) σ.server ∧ r = 0 ∧
            Extended n i c σ₀ σ' (j + m) ∨
          ¬ p.Sends (σ₀.client.fileid i) oldsize m (j * PTMAP) σ.server ∧
            (r < 0 ∨ r = 0 ∧ ∃ k < j + m, σ'.client.has i k = false)))
      (fun _ _ => p.Sends (σ₀.client.fileid i) oldsize m (j * PTMAP) σ.server) σ := by
  induction m generalizing j σ with
  | zero =>
    unfold mapFrom
    exact (Lib.wp_pure _).mpr ⟨h.fd, .inl ⟨trivial, rfl, h⟩⟩
  | succ m ih =>
    have hnext : j * PTMAP + PTMAP = (j + 1) * PTMAP := (Nat.succ_mul _ _).symm
    unfold mapFrom Peer.Sends
    rw [Lib.wp_bind]
    refine wp_mono (fsipcMap_spec (p := p) hi h) ?_ fun _ σ₁ hnone => by rw [hnone]; trivial
    rintro r σ₁ ⟨a, hrespond, hfd, hr⟩
    rw [hrespond]
    dsimp only
    rcases hr with ⟨hup, hneg, hr⟩ | ⟨hzero, hr, h₁ | ⟨hstop, hhas⟩⟩
    · -- The page is refused, and the size is asked for again.
      rw [if_pos hr, if_pos hneg, Lib.wp_bind, wp_fsipcSetSize]
      refine ⟨fun a' s up _ hback => ?_, fun _ => id, fun hno => absurd (hno.symm.trans hup) nofun⟩
      rw [Lib.wp_pure]
      refine ⟨hfd, .inr ⟨by rw [hback]; simp, .inl ?_⟩⟩
      split <;> omega
    · rw [if_neg (by omega), if_neg (by omega), if_pos h₁.serving, hnext]
      refine wp_mono (ih (by omega) h₁) ?_ fun _ _ => id
      rintro r' σ₂ ⟨hfd₂, h₂⟩
      rw [Nat.add_assoc, Nat.add_comm 1 m] at h₂
      exact ⟨hfd₂, h₂⟩
    · -- There is no page table for the page, and the process does not see it.
      rw [if_neg (by omega), if_neg (by omega), if_neg (by rw [hstop]; simp)]
      by_cases hm : m = 0
      · subst hm
        unfold mapFrom
        rw [Lib.wp_pure]
        refine ⟨hfd, .inr ⟨fun hne => hne rfl, .inr ⟨rfl, j, by omega, ?_⟩⟩⟩
        rw [hhas, h.pages j (by omega), decide_eq_false (by omega)]
      · exact mapFrom_stopped hstop hm hm

/-! ## The whole call -/

theorem lt_pages {k v : Nat} : k < pages v ↔ k * PTMAP < v := by
  unfold pages PTMAP
  omega

theorem round_eq {v : Nat} (h : v ≤ MAXFILESIZE) : round v = pages v * PTMAP := round_of_le h

theorem turns_eq {a b : Nat} (ha : a ≤ MAXFILESIZE) (hb : b ≤ MAXFILESIZE) :
    turns a b = pages b - pages a := by
  unfold turns
  rw [round_eq ha, round_eq hb, ← Nat.sub_mul, Nat.mul_div_cancel _ (by decide)]

theorem pages_mono {a b : Nat} (h : a ≤ b) : pages a ≤ pages b := by
  unfold pages
  exact Nat.div_le_div_right (by omega)

theorem Extended.agrees {c : Bytes} {σ₀ : Session} {size : Nat}
    (h : Extended n i c σ₀ σ (User.pages size))
    (hclient : σ₀.client.size i = size) (hserver : c.word (sizeAt (σ₀.file i)) = size) :
    σ.Agrees i size := by
  have hfile : σ.file i = σ₀.file i := by
    unfold file Server.fileOf
    rw [h.opentab, h.fd.fileid]
  have hs := h.settled
  have hmod : sizeAt (σ₀.file i) % 4 = 0 := by
    have := hs.anchored.aligned
    unfold sizeAt
    omega
  have hcached : σ.server.cached (sizeAt (σ₀.file i)) = true := hs.anchored.cached 128 (by omega)
  refine ⟨h.fd.size.trans hclient, ?_, fun k hk => ?_⟩
  · rw [hfile, Fs.word_eq_content hcached hmod, hs.size, hserver]
  · rw [h.pages k hk]
    exact decide_eq_decide.mpr lt_pages

/-- The pages of a file that grows are mapped, or one of them is refused. -/
theorem remap_grow {c : Bytes} {old size : Nat} (hi : i < MAXFD) (hsize : size ≤ MAXFILESIZE)
    (hle : old ≤ size) (h : Extended n i c σ σ (pages old)) (hclient : σ.client.size i = size)
    (hserver : c.word (sizeAt (σ.file i)) = size) :
    wp (remap p (σ.client.fileid i) old size (index2data i))
      (fun r σ' =>
        p.Sends (σ.client.fileid i) old (turns old size) (round old) σ.server ∧ r = 0 ∧
            σ'.Agrees i size ∨
          ¬ p.Sends (σ.client.fileid i) old (turns old size) (round old) σ.server ∧
            (r < 0 ∧ σ'.client.size i = size ∨ r = 0 ∧ ¬ σ'.Agrees i size))
      (fun _ _ => p.Sends (σ.client.fileid i) old (turns old size) (round old) σ.server) σ := by
  have hold : old ≤ MAXFILESIZE := by omega
  have hmono := pages_mono hle
  have hnone : turns size old = 0 := by
    rw [turns_eq hsize hold]
    omega
  unfold remap
  rw [Lib.wp_bind, round_eq hold, turns_eq hold hsize]
  have hlast : pages size ≤ MAXFILESIZE / PTMAP := Nat.le_trans (pages_mono hsize) (by decide)
  refine wp_mono (mapFrom_spec hi (by omega) h) ?_ fun _ _ => id
  rintro r σ' ⟨hfd, ⟨hsends, hr, h'⟩ | ⟨hsends, hr | ⟨hr, k, hk, hhas⟩⟩⟩
  · rw [Nat.add_sub_cancel' hmono] at h'
    rw [if_neg (by omega), Lib.wp_bind, wp_own, hnone]
    unfold unmapFrom
    rw [Lib.wp_pure, Lib.wp_pure]
    exact .inl ⟨hsends, rfl, h'.agrees hclient hserver⟩
  · rw [if_pos hr, Lib.wp_pure]
    exact .inr ⟨hsends, .inl ⟨hr, hfd.size.trans hclient⟩⟩
  · rw [if_neg (by omega), Lib.wp_bind, wp_own, hnone]
    unfold unmapFrom
    rw [Lib.wp_pure, Lib.wp_pure]
    refine .inr ⟨hsends, .inr ⟨rfl, fun hagrees => ?_⟩⟩
    have hpage := hagrees.pages k (by omega)
    rw [show ({ σ' with client := σ'.client } : Session).client.has i k = false from hhas] at hpage
    exact absurd (lt_pages.mp (by omega)) (of_decide_eq_false hpage.symm)

/-- The pages beyond the size of a file that shrinks are unmapped. -/
theorem remap_shrink {old size : Nat} (hi : i < MAXFD) (hold : old ≤ MAXFILESIZE) (hlt : size < old)
    (hclient : σ.client.size i = size) (hserver : σ.server.mem.word (sizeAt (σ.file i)) = size)
    (hpages : ∀ k < MAXFILESIZE / PTMAP, σ.client.has i k = decide (k * PTMAP < old)) :
    wp (remap p (σ.client.fileid i) old size (index2data i))
      (fun r σ' => r = 0 ∧ σ'.Agrees i size) (fun _ _ => False) σ := by
  have hsize : size ≤ MAXFILESIZE := by omega
  have hmono := pages_mono hlt.le
  have hnone : turns old size = 0 := by
    rw [turns_eq hold hsize]
    omega
  unfold remap
  rw [Lib.wp_bind, hnone]
  unfold mapFrom
  rw [Lib.wp_pure, if_neg (by omega), Lib.wp_bind, wp_own, round_eq hsize, turns_eq hsize hold]
  refine wp_mono (unmapFrom_spec hi _ _ _) ?_ fun _ _ h => h.elim
  rintro _ s ⟨hfd, hhas⟩
  rw [Lib.wp_pure]
  refine ⟨rfl, hfd.size.trans hclient, ?_, fun k hk => ?_⟩
  · unfold file at hserver ⊢
    rw [hfd.fileid]
    exact hserver
  · have hold' : k < pages old ↔ k * PTMAP < old := lt_pages
    have hnew : k < pages size ↔ k * PTMAP < size := lt_pages
    rw [hhas, hpages k hk, ← decide_not, ← Bool.decide_and]
    exact decide_eq_decide.mpr (by omega)

/-- The descriptor has got the size, and nothing else has changed. -/
def sized (σ : Session) (i size : Nat) : Session :=
  { σ with client := { σ.client with mem := σ.client.mem.setWord (fsizeAt (index2fd i)) size } }

theorem sized_size {size : Nat} (h : size ≤ MAXFILESIZE) : (σ.sized i size).client.size i = size := by
  have hmax : MAXFILESIZE = 4194304 := rfl
  unfold sized Client.size
  rw [Lib.Bytes.word_setWord_self, Nat.mod_eq_of_lt (by omega)]

theorem sized_fileid (size : Nat) : (σ.sized i size).client.fileid i = σ.client.fileid i := by
  unfold sized Client.fileid
  refine Lib.Bytes.word_setWord_of_ne _ ?_
  unfold fileidAt fsizeAt
  omega

theorem ftruncate_eq (h : IsFile σ.client i) {size : Nat} (hsize : size ≤ MAXFILESIZE)
    {Q : Int → Session → Prop} {E : Halt → Session → Prop} :
    wp (ftruncate p i size) Q E σ ↔
      wp (do
        let r ← fsipcSetSize p (σ.client.fileid i) size
        if r < 0 then return r
        else remap p (σ.client.fileid i) (σ.client.size i) size (index2data i)) Q E (σ.sized i size) := by
  have hlt := h.lt
  unfold ftruncate fdLookup loadWord storeWord
  rw [if_neg (by omega), if_neg (by omega)]
  simp only [Lib.wp_bind, wp_own, Lib.wp_get, Lib.wp_pure, h.mapped, if_true, h.dev, ne_eq,
    not_true_eq_false, if_false, Lib.wp_modify, fd2data_index2fd]
  rfl

theorem IsOpen.resized (h : σ.IsOpen n i) {size : Nat} (hsize : size ≤ MAXFILESIZE) {a : Answer}
    {s : Server} {up : Bool}
    (hr : p.respond σ.server (.setSize (σ.client.fileid i).toUInt32 size.toUInt32) = some (a, s, up)) :
    up = true ∧ Resized (σ.client.fileid i) size σ.server a.val s := by
  have hmax : MAXFILESIZE = 4194304 := rfl
  have hlt : σ.client.fileid i < 2 ^ 32 := Lib.Bytes.word_lt _ _
  have hfileid := toNat_toUInt32 hlt
  have hres := Peer.respond_setSize (c := σ.server.content) (n := n) (by rw [hfileid]; exact h.server) hr
  rwa [hfileid, toNat_toUInt32 (by omega)] at hres

/-- The server has set the size: the pages follow, or one of them is refused. -/
theorem remap_spec (h : σ.IsOpen n i) {size : Nat} (hsize : size ≤ MAXFILESIZE) {s : Server}
    (hres : Resized (σ.client.fileid i) size σ.server 0 s) :
    wp (remap p (σ.client.fileid i) (σ.client.size i) size (index2data i))
      (fun r σ' =>
        p.Sends (σ.client.fileid i) (σ.client.size i) (turns (σ.client.size i) size)
            (round (σ.client.size i)) s ∧ r = 0 ∧ σ'.Agrees i size ∨
          ¬ p.Sends (σ.client.fileid i) (σ.client.size i) (turns (σ.client.size i) size)
            (round (σ.client.size i)) s ∧
            (r < 0 ∧ σ'.client.size i = size ∨ r = 0 ∧ ¬ σ'.Agrees i size))
      (fun _ _ => p.Sends (σ.client.fileid i) (σ.client.size i) (turns (σ.client.size i) size)
        (round (σ.client.size i)) s) { σ.sized i size with server := s, serving := true } := by
  have hmax : MAXFILESIZE = 4194304 := rfl
  have hi := h.file.lt
  have hold := h.file.size
  have hsmall : size % 2 ^ 32 = size := Nat.mod_eq_of_lt (by omega)
  have hclient : ({ σ.sized i size with server := s, serving := true } : Session).client.size i = size := sized_size hsize
  have hfileid : ({ σ.sized i size with server := s, serving := true } : Session).client.fileid i = σ.client.fileid i :=
    sized_fileid size
  have hfile : ({ σ.sized i size with server := s, serving := true } : Session).file i = s.fileOf (σ.client.fileid i) := by
    unfold file
    rw [hfileid]
  rcases hres with ⟨hneg, -⟩ | ⟨-, hk, hword, hgrow⟩
  · omega
  have hsame : s.fileOf (σ.client.fileid i) = σ.file i := by
    unfold file Server.fileOf
    rw [hk.opentab]
  rw [← hfileid]
  have hserver : σ.server.mem.word (sizeAt (σ.file i)) = σ.server.content.word (sizeAt (σ.file i)) := by
    refine Fs.word_eq_content (h.server.anchored.cached 128 (by omega)) ?_
    have := h.server.anchored.aligned
    unfold sizeAt
    omega
  have hfileOf : σ.server.fileOf (σ.client.fileid i) = σ.file i := rfl
  by_cases hle : σ.client.size i ≤ size
  · -- The pages up to the old size are mapped.
    rw [hfileOf] at hgrow hword
    rw [h.agrees.server] at hserver
    have hin := hgrow (by omega)
    have hsettled := (h.server.grow size).of_intact hin
    have hext : Extended n i (σ.server.put (sizeAt (σ.file i)) size).content
        { σ.sized i size with server := s, serving := true } { σ.sized i size with server := s, serving := true }
        (User.pages (σ.client.size i)) := by
      refine ⟨rfl, .refl i _, rfl, ?_, fun k hk => ?_⟩
      · rw [hfile, hsame]
        exact hsettled
      · exact (h.agrees.pages k hk).trans (decide_eq_decide.mpr lt_pages.symm)
    refine remap_grow hi hsize hle hext hclient ?_
    rw [hfile, hsame, ← hin.content, hword, hsmall]
  · have hnone : turns (σ.client.size i) size = 0 := by
      have := pages_mono (show size ≤ σ.client.size i by omega)
      rw [turns_eq hold hsize]
      omega
    have hcached : s.cached (sizeAt (σ.file i)) = true := hk.cached (h.server.anchored.cached 128 (by omega))
    have hmod : sizeAt (σ.file i) % 4 = 0 := by
      have := h.server.anchored.aligned
      unfold sizeAt
      omega
    refine wp_mono (remap_shrink hi hold (by omega) hclient ?_ h.agrees.pages) ?_ fun _ _ hs => hs.elim
    · rw [hfile, hsame, Fs.word_eq_content hcached hmod, ← hsmall]
      exact hword
    · rw [hnone]
      exact fun r σ' hr => .inl ⟨trivial, hr⟩

/-- All that `ftruncate` does: either nothing is refused and the promise is kept, or the size of the
descriptor stays the new one after an error, or the last page is missing after a success. -/
theorem ftruncate_spec {size : Nat} (h : σ.IsOpen n i) :
    wp (ftruncate p i size)
      (fun r σ' =>
        σ.Unrefused p i size ∧ (r = 0 ∧ σ'.Agrees i size ∨ r < 0 ∧ σ'.Agrees i (σ.client.size i)) ∨
          ¬ σ.Unrefused p i size ∧ size ≠ σ.client.size i ∧
            (r < 0 ∧ σ'.client.size i = size ∨ r = 0 ∧ ¬ σ'.Agrees i size))
      (fun _ _ => σ.Unrefused p i size) σ := by
  by_cases hmax : MAXFILESIZE < size
  · unfold ftruncate
    rw [if_pos hmax, Lib.wp_pure]
    exact .inl ⟨.inl hmax, .inr ⟨by decide, h.agrees⟩⟩
  have hsize : size ≤ MAXFILESIZE := by omega
  have hclient : (σ.sized i size).client.size i = size := sized_size hsize
  have hfileid : (σ.sized i size).client.fileid i = σ.client.fileid i := sized_fileid size
  have hunrefused : σ.Unrefused p i size ↔ size = σ.client.size i ∨
      p.Grants (σ.client.fileid i) (σ.client.size i) size σ.server :=
    or_iff_right hmax
  rw [ftruncate_eq h.file hsize, Lib.wp_bind, wp_fsipcSetSize, hunrefused]
  unfold Peer.Grants
  have hserving : (σ.sized i size).serving = true := h.serving
  refine ⟨fun a s up _ hr => ?_, fun _ hnone => ?_, fun hno => absurd (hno.symm.trans hserving) nofun⟩
  · have hr' : p.respond σ.server (.setSize (σ.client.fileid i).toUInt32 size.toUInt32) =
      some (a, s, up) := hr
    obtain ⟨rfl, hres⟩ := h.resized hsize hr'
    rw [hr']
    dsimp only
    rw [wp_ite]
    refine ⟨fun hneg => ?_, fun hpos => ?_⟩
    · -- The server has refused, and the size of the descriptor is not restored.
      obtain rfl : s = σ.server := by
        rcases hres with hres | hres
        · exact hres.2
        · omega
      rw [Lib.wp_pure]
      by_cases heq : size = σ.client.size i
      · refine .inl ⟨.inl heq, .inr ⟨hneg, hclient.trans heq, ?_, h.agrees.pages⟩⟩
        have := h.agrees.server
        unfold file at this ⊢
        rw [hfileid]
        exact this
      · exact .inr ⟨fun hor => hor.elim heq fun hgrant => by omega, heq, .inl ⟨hneg, hclient⟩⟩
    · have hzero : a.val = 0 := by
        rcases hres with hres | hres
        · exact absurd hres.1 hpos
        · exact hres.1
      rw [hzero] at hres ⊢
      refine wp_mono (remap_spec h hsize hres) ?_ fun _ _ hs => .inr ⟨Int.le_refl 0, hs⟩
      rintro r σ' (⟨hs, hr₀, hagrees⟩ | ⟨hs, hnew⟩)
      · exact .inl ⟨.inr ⟨Int.le_refl 0, hs⟩, .inl ⟨hr₀, hagrees⟩⟩
      · have hne : size ≠ σ.client.size i := by
          rintro rfl
          refine hs ?_
          rw [turns_eq hsize hsize, Nat.sub_self]
          trivial
        exact .inr ⟨fun hor => hor.elim hne fun hgrant => hs hgrant.2, hne, hnew⟩
  · have hnone' : p.respond σ.server (.setSize (σ.client.fileid i).toUInt32 size.toUInt32) = none := hnone
    rw [hnone']
    exact .inr trivial

end Session

/-! ## A process that knows the answers only -/

theorem fsipcMap_congr (srv : Answers) {fileid offset : Nat} {a : Answer}
    (h : srv.map fileid offset = a) (va : Nat) :
    fsipcMap srv fileid offset va = fsipcMap ⟨fun _ _ => a, fun _ _ => a.val⟩ fileid offset va := by
  unfold fsipcMap
  rw [h]

namespace Session

variable {p : Peer} {σ : Session}

theorem own_self {α : Type} (x : Program α) :
    wp (own x) (fun a σ' => x σ.client = .ok a σ'.client) (fun _ _ => True) σ := by
  rw [wp_own]
  exact wp_mono (Lib.wp_self x σ.client) (fun _ _ => id) fun _ _ _ => trivial

/-- The run of the first loop, with answers that are those of `srv` in front of `i`. -/
theorem mapFrom_client (srv : Answers) (fileid oldsize va n i : Nat) :
    wp (mapFrom p fileid oldsize va n i)
      (fun r σ' => ∃ srv' : Answers, (∀ o < i, srv'.map fileid o = srv.map fileid o) ∧
        (∀ v, n = 0 ∨ v ≠ oldsize → srv'.setSize fileid v = srv.setSize fileid v) ∧
        User.mapFrom srv' fileid oldsize va n i σ.client = .ok r σ'.client)
      (fun _ _ => True) σ := by
  induction n generalizing i σ srv with
  | zero =>
    unfold mapFrom
    exact (Lib.wp_pure _).mpr ⟨srv, fun _ _ => rfl, fun _ _ => rfl, rfl⟩
  | succ n ih =>
    unfold mapFrom fsipcMap
    rw [Lib.wp_bind, Lib.wp_bind, wp_ask]
    refine ⟨fun a s up _ _ => wp_mono (own_self _) ?_ fun _ _ => id, fun _ _ => trivial, fun _ => trivial⟩
    intro r σ₁ hmap
    by_cases hneg : r < 0
    · rw [if_pos hneg, Lib.wp_bind, wp_fsipcSetSize]
      refine ⟨fun a' s' up' _ _ => ?_, fun _ _ => trivial, fun _ => trivial⟩
      rw [Lib.wp_pure]
      refine ⟨⟨fun f o => if o = i then a else srv.map f o,
        fun f v => if v = oldsize then a'.val else srv.setSize f v⟩, fun o ho => ?_, fun v hv => ?_, ?_⟩
      · exact if_neg (by omega)
      · exact if_neg (by omega)
      · rw [← fsipcMap_congr ⟨fun f o => if o = i then a else srv.map f o,
          fun f v => if v = oldsize then a'.val else srv.setSize f v⟩ (if_pos rfl)] at hmap
        unfold User.mapFrom
        rw [Lib.bind_ok hmap, if_pos hneg]
        simp only [if_true]
        rfl
    · rw [if_neg hneg]
      refine wp_mono (ih ⟨fun f o => if o = i then a else srv.map f o, srv.setSize⟩ (i + PTMAP)) ?_
        fun _ _ => id
      rintro r' σ₂ ⟨srv', hsame, hset, hrest⟩
      have hpage : 0 < PTMAP := by decide
      rw [← fsipcMap_congr srv' ((hsame i (by omega)).trans (if_pos rfl))] at hmap
      refine ⟨srv', fun o ho => (hsame o (by omega)).trans (if_neg (by omega)), fun v hv => ?_, ?_⟩
      · exact hset v (.inr (by omega))
      · unfold User.mapFrom
        rw [Lib.bind_ok hmap, if_neg hneg]
        exact hrest

/-- The process does what `ftruncate` does with the answers of the server. -/
theorem ftruncate_client (i size : Nat) :
    wp (ftruncate p i size)
      (fun r σ' => ∃ srv : Answers, User.ftruncate srv i size σ.client = .ok r σ'.client)
      (fun _ _ => True) σ := by
  have silent : Answers := ⟨fun _ _ => ⟨0, 0, none⟩, fun _ _ => 0⟩
  by_cases hmax : size > MAXFILESIZE
  · unfold ftruncate User.ftruncate
    simp only [if_pos hmax]
    exact (Lib.wp_pure _).mpr ⟨silent, rfl⟩
  unfold ftruncate User.ftruncate
  simp only [if_neg hmax]
  rw [Lib.wp_bind]
  refine wp_mono (own_self _) ?_ fun _ _ => id
  rintro fd σ₁ hfd
  simp only [Lib.bind_ok hfd]
  rcases fd with e | fd
  · exact (Lib.wp_pure _).mpr ⟨silent, rfl⟩
  dsimp only
  rw [Lib.wp_bind]
  refine wp_mono (own_self _) ?_ fun _ _ => id
  rintro dev σ₂ hdev
  simp only [Lib.bind_ok hdev]
  by_cases hne : dev ≠ DEVFILE_ID
  · simp only [if_pos hne]
    exact (Lib.wp_pure _).mpr ⟨silent, rfl⟩
  simp only [if_neg hne]
  rw [Lib.wp_bind]
  refine wp_mono (own_self _) ?_ fun _ _ => id
  rintro fileid σ₃ hfileid
  simp only [Lib.bind_ok hfileid]
  rw [Lib.wp_bind]
  refine wp_mono (own_self _) ?_ fun _ _ => id
  rintro oldsize σ₄ hold
  simp only [Lib.bind_ok hold]
  rw [Lib.wp_bind]
  refine wp_mono (own_self _) ?_ fun _ _ => id
  rintro u σ₅ hstore
  simp only [Lib.bind_ok hstore]
  rw [Lib.wp_bind, wp_fsipcSetSize]
  refine ⟨fun a s up _ _ => ?_, fun _ _ => trivial, fun _ => trivial⟩
  rw [wp_ite]
  refine ⟨fun hneg => ?_, fun hpos => ?_⟩
  · refine (Lib.wp_pure _).mpr ⟨⟨silent.map, fun _ _ => a.val⟩, ?_⟩
    rw [if_pos hneg]
    rfl
  · unfold remap
    rw [Lib.wp_bind]
    refine wp_mono (mapFrom_client ⟨silent.map, fun _ _ => a.val⟩ _ _ _ _ _) ?_ fun _ _ => id
    rintro r σ₆ ⟨srv, -, hset, hmap⟩
    have hval : srv.setSize fileid size = a.val := by
      refine hset size ?_
      by_cases heq : size = oldsize
      · exact .inl (by rw [heq, turns, Nat.sub_self, Nat.zero_div])
      · exact .inr heq
    have hrun : ∀ {x : Int} {c : Client}, User.remap srv fileid oldsize size (fd2data fd) σ₅.client =
        .ok x c → (if srv.setSize fileid size < 0 then (pure (srv.setSize fileid size) : Program Int)
          else User.remap srv fileid oldsize size (fd2data fd)) σ₅.client = .ok x c := by
      intro x c hx
      rw [hval, if_neg hpos]
      exact hx
    rw [wp_ite]
    refine ⟨fun hneg => ?_, fun hpos' => ?_⟩
    · refine (Lib.wp_pure _).mpr ⟨srv, hrun ?_⟩
      unfold User.remap
      rw [Lib.bind_ok hmap, if_pos hneg]
      rfl
    · rw [Lib.wp_bind]
      refine wp_mono (own_self _) ?_ fun _ _ => id
      rintro u' σ₇ hunmap
      refine (Lib.wp_pure _).mpr ⟨srv, hrun ?_⟩
      unfold User.remap
      rw [Lib.bind_ok hmap, if_neg hpos', Lib.bind_ok hunmap]
      rfl

end Session

instance decidableSends (p : Peer) (fileid oldsize : Nat) :
    (n i : Nat) → (s : Server) → Decidable (p.Sends fileid oldsize n i s)
  | 0, _, _ => isTrue trivial
  | n + 1, i, s =>
    match h : p.respond s (.map fileid.toUInt32 i.toUInt32) with
    | none => isTrue (by rw [Peer.Sends, h]; trivial)
    | some (a, s', up) =>
      have := decidableSends p fileid oldsize n (i + PTMAP) s'
      decidable_of_iff (if a.val < 0 then p.respond s' (.setSize fileid.toUInt32 oldsize.toUInt32) = none
        else if up then p.Sends fileid oldsize n (i + PTMAP) s' else n ≠ 0) (by rw [Peer.Sends, h])

instance (p : Peer) (fileid oldsize size : Nat) (s : Server) :
    Decidable (p.Grants fileid oldsize size s) :=
  match h : p.respond s (.setSize fileid.toUInt32 size.toUInt32) with
  | none => isTrue (by rw [Peer.Grants, h]; trivial)
  | some (a, s', _) =>
    decidable_of_iff (0 ≤ a.val ∧ p.Sends fileid oldsize (turns oldsize size) (round oldsize) s')
      (by rw [Peer.Grants, h])

/-- Client 1 has created a file, which is empty, and descriptor 0 is open on it. -/
def writer : Session where
  client := {
    mem := Bytes.copy (fun _ => 0) (index2fd 0) (filefdBytes (Fs.opened.1.opentab 0).ff) 0 PTMAP
    mapped := fun q => q == index2fd 0 / PTMAP
    log := [] }
  server := { Fs.opened.1 with
    opentab := Function.update Fs.fresh.opentab 0 (Fs.opened.1.opentab 0) }
  serving := true

end Mos.User
