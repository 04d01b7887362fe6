import Mos.Fs.Effects
import Mos.Fs.Run

/-!
# Who may use a fileid

`open_lookup` counts the mappings of the Filefd page of an entry and does not ask whose
they are. So the mappings of all clients are part of the system here.
-/

namespace Mos.Fs

open Lib (Bytes Proc Prog within provided)
open Lib.Proc (Trace World)

/-- Who has mapped the Filefd pages: the server, and the clients, which occur once for each
mapping. -/
structure Holders where
  own : Nat → Bool
  clients : Nat → List Nat

/-- Nothing is open. -/
def Holders.empty : Holders := ⟨fun _ => false, fun _ => []⟩

/-- `pp_ref` of the page of an entry. -/
def Holders.count (h : Holders) (i : Nat) : Nat := (h.own i).toNat + (h.clients i).length

/-- The entry with `o_ff == va`. -/
def entryAt (va : Nat) : Option Nat :=
  if FILEVA ≤ va ∧ va < FILEVA + MAXOPEN * BLOCK_SIZE then some ((va - FILEVA) / BLOCK_SIZE) else none

def Holders.take (h : Holders) (i : Nat) : Holders := { h with own := Function.update h.own i true }

def Holders.setClients (h : Holders) (i : Nat) (l : List Nat) : Holders :=
  { h with clients := Function.update h.clients i l }

/-- The mappings after an answer of the kernel. A page that is sent is mapped by the receiver. -/
def Holders.next (h : Holders) : (c : Call) × Reply c → Holders
  | ⟨.memAlloc va, .ok ()⟩ => (entryAt va).elim h h.take
  | ⟨.ipcSend envid _ srcva _, r⟩ =>
    if r = 0 then (entryAt srcva).elim h fun i => h.setClients i (envid :: h.clients i) else h
  | _ => h

/-- What the kernel answers: references are counted, memory can only run out, and no page is sent
that the server has not mapped. -/
def Holders.Answers (h : Holders) : (c : Call) × Reply c → Prop
  | ⟨.pageref i, r⟩ => r = h.count i
  | ⟨.memAlloc _, r⟩ => r = .ok () ∨ r = .error .noMem
  | ⟨.ipcSend _ _ srcva _, r⟩ => r = 0 → ∀ i ∈ entryAt srcva, h.own i = true
  | ⟨.mark .., _⟩ => True

def Holders.after : Holders → Trace Call Reply → Holders
  | h, [] => h
  | h, e :: t => (h.next e).after t

def Holders.Answered : Holders → Trace Call Reply → Prop
  | _, [] => True
  | h, e :: t => h.Answers e ∧ (h.next e).Answered t

/-- Requests are served. A client that has a page shares it by `fork`, `spawn` or `dup`, and loses it
by `close` and when it ends. -/
inductive Shares : Server × Holders → Server × Holders → Prop where
  | request {s s' h w envid req t} (hrun : (serve envid req).run w s = (t, .ok (), s'))
      (ht : h.Answered t) : Shares (s, h) (s', h.after t)
  | share {s h i e e'} (he : e ∈ h.clients i) : Shares (s, h) (s, h.setClients i (e' :: h.clients i))
  | drop {s h i e} : Shares (s, h) (s, h.setClients i ((h.clients i).erase e))

def Shared (s : Server) (h : Holders) : Prop :=
  ∃ s₀, Booted s₀ ∧ Relation.ReflTransGen Shares (s₀, .empty) (s, h)

/-! ## Pages of clients are pages of the server -/

def Holders.Backed (h : Holders) : Prop := ∀ i, h.clients i ≠ [] → h.own i = true

theorem backed_setClients {h : Holders} (hb : h.Backed) {i : Nat} {l : List Nat}
    (hl : l ≠ [] → h.own i = true) : (h.setClients i l).Backed := by
  intro j hj
  by_cases hij : j = i
  · subst hij
    exact hl (by simpa [Holders.setClients] using hj)
  · exact hb j (by simpa [Holders.setClients, hij] using hj)

theorem backed_take {h : Holders} (hb : h.Backed) (i : Nat) : (h.take i).Backed := by
  intro j hj
  by_cases hij : j = i
  · simp [Holders.take, hij]
  · simpa [Holders.take, hij] using hb j hj

theorem backed_next {h : Holders} (hb : h.Backed) {e : (c : Call) × Reply c} (he : h.Answers e) :
    (h.next e).Backed := by
  rcases e with ⟨_ | va | i | ⟨envid, val, srcva, perm⟩, r⟩
  · exact hb
  · rcases r with e | ⟨⟩
    · exact hb
    · show ((entryAt va).elim h h.take).Backed
      cases entryAt va with
      | none => exact hb
      | some i => exact backed_take hb i
  · exact hb
  · show (if r = (0 : Int) then
      (entryAt srcva).elim h fun i => h.setClients i (envid :: h.clients i) else h).Backed
    split
    · have howned := he ‹_›
      cases hi : entryAt srcva with
      | none => exact hb
      | some i => exact backed_setClients hb fun _ => howned i hi
    · exact hb

theorem backed_after {h : Holders} (hb : h.Backed) {t : Trace Call Reply} (ht : h.Answered t) :
    (h.after t).Backed := by
  induction t generalizing h with
  | nil => exact hb
  | cons e t ih => exact ih (backed_next hb ht.1) ht.2

theorem Shared.backed {s : Server} {h : Holders} (hs : Shared s h) : h.Backed := by
  obtain ⟨s₀, -, hr⟩ := hs
  suffices H : ∀ p : Server × Holders, Relation.ReflTransGen Shares (s₀, .empty) p → p.2.Backed from
    H _ hr
  intro p hp
  induction hp with
  | refl => exact fun i hi => absurd rfl hi
  | tail _ hstep ih =>
    cases hstep with
    | request _ ht => exact backed_after ih ht
    | @share _ h i e e' he => exact backed_setClients ih fun _ => ih i (List.ne_nil_of_mem he)
    | @drop _ h i e =>
      refine backed_setClients ih fun hne => ih i fun hnil => hne ?_
      show (h.clients i).erase e = []
      rw [hnil]
      rfl

/-! ## Answers -/

/-- The replies of the server: to whom, the value and the page. -/
def sends (t : Trace Call Reply) : List (Nat × Int × Nat) :=
  t.filterMap fun e => match e with
    | ⟨.ipcSend envid val srcva _, _⟩ => some (envid, val, srcva)
    | _ => none

theorem sends_quiet {K : Mark → Prop} {D : Prop} {t l : Trace Call Reply} (h : ∀ e ∈ l, (quiet K D).calls e.1) :
    sends (t ++ l) = sends t := by
  have hnil : sends l = [] := by
    refine List.filterMap_eq_nil_iff.mpr ?_
    rintro ⟨_ | _ | _ | _, r⟩ he
    · rfl
    · rfl
    · rfl
    · exact (h _ he).elim
  have happ : sends (t ++ l) = sends t ++ sends l := List.filterMap_append
  rw [happ, hnil, List.append_nil]

theorem Holders.Answered.quiet {K : Mark → Prop} {D : Prop} {h : Holders} {t : Trace Call Reply}
    (ht : h.Answered t) : ∀ e ∈ t, (Fs.quiet K D).answers e.1 e.2 := by
  induction t generalizing h with
  | nil => exact fun e he => nomatch he
  | cons e t ih =>
    intro e' he
    rcases List.mem_cons.mp he with rfl | he
    · rcases e' with ⟨_ | _ | _ | _, r⟩
      · trivial
      · exact ht.1
      · trivial
      · trivial
    · exact ih ht.2 e' he

theorem Holders.Answered.init {h : Holders} {t : Trace Call Reply} {e} (ht : h.Answered (t ++ [e])) :
    h.Answered t := by
  induction t generalizing h with
  | nil => trivial
  | cons e' t ih => exact ⟨ht.1, ih ht.2⟩

/-- The kernel answers as the mappings say. -/
def Holders.kernel (h : Holders) : Lib.Cond Call Reply := ⟨h.Answered, Holders.Answered.init⟩

/-- The fileid of a request that has one. -/
def Request.fileid : Request → Option Nat
  | .map fileid _ | .setSize fileid _ | .close fileid | .dirty fileid _ => some fileid.toNat
  | .open .. | .remove .. | .sync => none

/-- The request is about a block that no file can have. -/
def Request.Beyond : Request → Prop
  | .map _ offset | .dirty _ offset => NINDIRECT ≤ offset.toNat / BLOCK_SIZE
  | _ => False

/-- The client has the page of the entry, or it gets the answer `-E_INVAL` and no file changes. -/
def Authorised (h : Holders) (envid fileid : Nat) (s s' : Server) (t : Trace Call Reply) : Prop :=
  envid ∈ h.clients fileid ∨
    sends t = [(envid, Err.inval.code, 0)] ∧ s'.content = s.content ∧ s'.disk = s.disk

/-! ## What the server answers -/

theorem sends_snoc (t : Trace Call Reply) (envid : Nat) (val : Int) (srcva perm : Nat) (r : Int) :
    sends (t ++ [⟨.ipcSend envid val srcva perm, r⟩]) = sends t ++ [(envid, val, srcva)] := by
  have happ : ∀ l, sends (t ++ l) = sends t ++ sends l := fun l => List.filterMap_append
  rw [happ]
  rfl

theorem ipcSend_spec (M : Lib.Cond Call Reply) (envid : Nat) (val : Int) (srcva perm : Nat) (s : Server)
    (t : Trace Call Reply) :
    provided M (ipcSend envid val srcva perm)
      (fun _ s' t' => s' = s ∧ sends t' = sends t ++ [(envid, val, srcva)])
      (fun _ s' t' => s' = s ∧ sends t' = sends t ++ [(envid, val, srcva)]) s t := by
  unfold ipcSend
  simp only [Lib.provided_bind, Lib.provided_call, Lib.provided_ite, Lib.provided_pure,
    Lib.provided_throw]
  exact fun r _ => ⟨fun _ _ => ⟨trivial, sends_snoc ..⟩, fun _ _ => ⟨trivial, sends_snoc ..⟩⟩

theorem code_inval {e : Err} : e.code = Err.inval.code ↔ e = .inval := by
  cases e <;> decide

/-- A request that gets past the lookup does not get the answer `-E_INVAL`. -/
def Passes (envid : Nat) (t : Trace Call Reply) : Prop := sends t ≠ [(envid, Err.inval.code, 0)]

theorem passes_bind {h : Holders} {α : Type} {x : Serv α} {P : α → Prop} {f : α → Serv Unit}
    {envid : Nat} (hx : within (quiet (fun _ => True) True) x P)
    (hf : ∀ a, P a → ∃ val srcva perm, f a = ipcSend envid val srcva perm ∧ val ≠ Err.inval.code)
    (s : Server) {t : Trace Call Reply} (ht : sends t = []) :
    provided h.kernel (x >>= f) (fun _ _ t' => Passes envid t') (fun _ _ t' => Passes envid t')
      s t := by
  rw [Lib.provided_bind]
  refine Lib.provided_mono (Lib.provided_within (fun _ => Holders.Answered.quiet) hx s t) (fun a s' t' _ h => ?_)
    fun e s' t' _ h => ?_
  · obtain ⟨⟨l, rfl, hl⟩, -, ha⟩ := h
    obtain ⟨val, srcva, perm, heq, hval⟩ := hf a ha
    have hno : ∀ {t'}, sends t' = sends (t ++ l) ++ [(envid, val, srcva)] → Passes envid t' := by
      intro t' h
      rw [sends_quiet hl, ht, List.nil_append] at h
      unfold Passes
      rw [h]
      simp [hval]
    rw [heq]
    exact Lib.provided_mono (ipcSend_spec ..) (fun _ _ _ _ h => hno h.2) fun _ _ _ _ h => hno h.2
  · obtain ⟨⟨l, rfl, hl⟩, -⟩ := h
    unfold Passes
    rw [sends_quiet hl, ht]
    simp

/-- What a request does with the file of its entry. -/
def Request.body (envid : Nat) : Request → Nat → Serv Unit
  | .map _ offset => fun f => do
    match ← fileGetBlock f (offset.toNat / BLOCK_SIZE) with
    | .error e => replyError envid e
    | .ok blk => ipcSend envid 0 blk (PTE_D ||| PTE_LIBRARY)
  | .setSize _ size => fun f => do
    fileSetSize f size.toNat
    ipcSend envid 0 0 0
  | .close _ => fun f => do
    fileClose f
    ipcSend envid 0 0 0
  | .dirty _ offset => fun f => do
    match ← fileDirty f offset.toNat with
    | .error e => replyError envid e
    | .ok () => ipcSend envid 0 0 0
  | .open .. | .remove .. | .sync => fun _ => pure ()

theorem serve_fileid {req : Request} {fileid : Nat} (h : req.fileid = some fileid) (envid : Nat) :
    serve envid req = withOpen envid fileid (req.body envid) := by
  cases req with
  | «open» path omode => nomatch h
  | remove path type => nomatch h
  | sync => nomatch h
  | map i offset => cases h; rfl
  | setSize i size => cases h; rfl
  | close i => cases h; rfl
  | dirty i offset => cases h; rfl

theorem passes_body {h : Holders} {req : Request} {fileid : Nat} (hreq : req.fileid = some fileid)
    (hb : ¬ req.Beyond) (envid f : Nat) (s : Server) {t : Trace Call Reply} (ht : sends t = []) :
    provided h.kernel (req.body envid f) (fun _ _ t' => Passes envid t')
      (fun _ _ t' => Passes envid t') s t := by
  have hdone : (0 : Int) ≠ Err.inval.code := by decide
  have herr : ∀ {α} {e : Err}, NotInval (.error e : Except Err α) → e.code ≠ Err.inval.code := by
    intro α e he hc
    exact he (by rw [code_inval.mp hc])
  cases req with
  | «open» path omode => nomatch hreq
  | remove path type => nomatch hreq
  | sync => nomatch hreq
  | map i offset =>
    refine passes_bind (within_fileGetBlock (fun _ _ => trivial) _) (fun r hr => ?_) s ht
    have hr := hr (Nat.lt_of_not_le hb)
    rcases r with e | blk
    · exact ⟨_, _, _, rfl, herr hr⟩
    · exact ⟨_, _, _, rfl, hdone⟩
  | setSize i size => exact passes_bind (within_fileSetSize (fun _ _ => trivial) (fun _ => trivial) _) (fun _ _ => ⟨_, _, _, rfl, hdone⟩) s ht
  | close i => exact passes_bind (within_fileClose (fun _ => trivial) f) (fun _ _ => ⟨_, _, _, rfl, hdone⟩) s ht
  | dirty i offset =>
    refine passes_bind (within_fileDirty f _) (fun r hr => ?_) s ht
    have hr := hr (Nat.lt_of_not_le hb)
    rcases r with e | u
    · exact ⟨_, _, _, rfl, herr hr⟩
    · exact ⟨_, _, _, rfl, hdone⟩

theorem fileBlockWalk_beyond (f : Nat) {i : Nat} (hi : NINDIRECT ≤ i) (alloc : Bool) :
    fileBlockWalk f i alloc = pure (.error .inval) := by
  have h10 : NDIRECT ≤ NINDIRECT := by decide
  unfold fileBlockWalk
  rw [if_neg (by omega), if_neg (by omega)]

theorem fileMapBlock_beyond (f : Nat) {i : Nat} (hi : NINDIRECT ≤ i) (alloc : Bool) :
    fileMapBlock f i alloc = pure (.error .inval) := by
  unfold fileMapBlock
  rw [fileBlockWalk_beyond f hi]
  rfl

theorem fileGetBlock_beyond (f : Nat) {i : Nat} (hi : NINDIRECT ≤ i) :
    fileGetBlock f i = pure (.error .inval) := by
  unfold fileGetBlock
  rw [fileMapBlock_beyond f hi]
  rfl

theorem fileDirty_beyond (f : Nat) {offset : Nat} (hi : NINDIRECT ≤ offset / BLOCK_SIZE) :
    fileDirty f offset = pure (.error .inval) := by
  unfold fileDirty
  rw [fileMapBlock_beyond f hi]
  rfl

theorem body_beyond {req : Request} (h : req.Beyond) (envid f : Nat) :
    req.body envid f = replyError envid .inval := by
  cases req with
  | map i offset =>
    simp only [Request.body, fileGetBlock_beyond f h]
    rfl
  | dirty i offset =>
    simp only [Request.body, fileDirty_beyond f h]
    rfl
  | _ => exact h.elim

/-! ## The lookup -/

theorem withOpen_spec {M : Lib.Cond Call Reply} {body : Nat → Serv Unit} {envid fileid : Nat}
    {s : Server} {Q : Unit → Server → Trace Call Reply → Prop}
    {E : Stop → Server → Trace Call Reply → Prop}
    (hlarge : MAXOPEN ≤ fileid → provided M (replyError envid .inval) Q E s [])
    (hone : ∀ r : Nat, r ≤ 1 → provided M (replyError envid .inval) Q E s [⟨.pageref fileid, r⟩])
    (hmore : ∀ r : Nat, fileid < MAXOPEN → 1 < r →
      provided M (body (s.opentab fileid).o_file) Q E s [⟨.pageref fileid, r⟩]) :
    provided M (withOpen envid fileid body) Q E s [] := by
  unfold withOpen openLookup
  simp only [Lib.provided_bind, Lib.provided_call, Lib.provided_ite, Lib.provided_pure,
    List.nil_append]
  refine ⟨fun h _ => hlarge h, fun hlt r _ => ⟨fun h _ => hone r h, fun h _ => ?_⟩⟩
  simp only [Lib.provided_get]
  exact fun _ => hmore r (Nat.lt_of_not_le hlt) (Nat.lt_of_not_le h)

theorem count_le_one {h : Holders} {i : Nat} (hi : h.clients i = []) : h.count i ≤ 1 := by
  unfold Holders.count
  rw [hi]
  cases h.own i <;> simp

theorem one_lt_count {h : Holders} (hb : h.Backed) {i : Nat} (hi : h.clients i ≠ []) :
    1 < h.count i := by
  have hlen := List.length_pos_iff.mpr hi
  unfold Holders.count
  rw [hb i hi]
  simp only [Bool.toNat_true]
  omega

/-- A client is authorised as `open_lookup` promises if and only if it has the page of the entry, or
nobody has, or there is no such entry or no such block. -/
theorem authorised_iff {s s' : Server} {h : Holders} {req : Request} {envid fileid : Nat}
    {w : World Call Reply} {t : Trace Call Reply} {r : Except Stop Unit} (hs : Shared s h)
    (hreq : req.fileid = some fileid) (hrun : (serve envid req).run w s = (t, r, s'))
    (ht : h.Answered t) :
    Authorised h envid fileid s s' t ↔
      envid ∈ h.clients fileid ∨ h.clients fileid = [] ∨ MAXOPEN ≤ fileid ∨ req.Beyond := by
  have hrefuse : ∀ l, sends l = [] → provided h.kernel (replyError envid .inval)
      (fun _ s' t' => Authorised h envid fileid s s' t') (fun _ s' t' => Authorised h envid fileid s s' t')
      s l := by
    intro l hl
    have hdone : ∀ {s' t'}, s' = s ∧ sends t' = sends l ++ [(envid, Err.inval.code, 0)] →
        Authorised h envid fileid s s' t' := by
      rintro s' t' ⟨rfl, ht'⟩
      rw [hl] at ht'
      exact Or.inr ⟨ht', rfl, rfl⟩
    exact Lib.provided_mono (ipcSend_spec ..) (fun _ _ _ _ => hdone) fun _ _ _ _ => hdone
  have hrun' : ∀ {P : Server → Trace Call Reply → Prop}, provided h.kernel
      (serve envid req) (fun _ s' t' => P s' t') (fun _ s' t' => P s' t') s [] → P s' t := by
    intro P hp
    rcases r with e | u
    · exact Lib.provided_run_error hp hrun trivial ht
    · exact Lib.provided_run_ok hp hrun trivial ht
  have hcount : ∀ {r}, h.kernel.Holds [⟨.pageref fileid, r⟩] → r = h.count fileid := fun hr => hr.1
  rw [serve_fileid hreq] at hrun'
  constructor
  · intro hauth
    by_contra hcond
    simp only [not_or] at hcond
    obtain ⟨hin, hnone, hsmall, hblock⟩ := hcond
    have hpass : Passes envid t := by
      refine hrun' (P := fun _ t' => Passes envid t')
        (withOpen_spec (fun hl => absurd hl hsmall) (fun r hr => ?_) fun r _ _ => ?_)
      · refine Lib.provided_intro fun hk => ?_
        have := one_lt_count hs.backed hnone
        rw [← hcount hk] at this
        omega
      · exact passes_body hreq hblock envid _ s rfl
    exact hpass (hauth.resolve_left hin).1
  · rintro (hin | hcond)
    · exact Or.inl hin
    · refine hrun' (withOpen_spec (fun _ => hrefuse _ rfl) (fun r _ => hrefuse _ rfl) fun r hlt hr => ?_)
      refine Lib.provided_intro fun hk => ?_
      rcases hcond with hnone | hlarge | hblock
      · have := count_le_one hnone
        rw [← hcount hk] at this
        omega
      · exact absurd hlt (Nat.not_lt_of_le hlarge)
      · rw [body_beyond hblock]
        exact hrefuse _ rfl

instance (h : Holders) : (e : (c : Call) × Reply c) → Decidable (h.Answers e)
  | ⟨.mark .., _⟩ => isTrue trivial
  | ⟨.memAlloc _, r⟩ => inferInstanceAs (Decidable (r = .ok () ∨ r = .error .noMem))
  | ⟨.pageref i, r⟩ => inferInstanceAs (Decidable (r = h.count i))
  | ⟨.ipcSend _ _ srcva _, r⟩ =>
    inferInstanceAs (Decidable (r = 0 → ∀ i ∈ entryAt srcva, h.own i = true))

instance decidableAnswered : (h : Holders) → (t : Trace Call Reply) → Decidable (h.Answered t)
  | _, [] => isTrue trivial
  | h, e :: t =>
    have := decidableAnswered (h.next e) t
    inferInstanceAs (Decidable (h.Answers e ∧ (h.next e).Answered t))

/-- Client 1 creates a file, and entry 0 is its. -/
def opened : Server × Holders :=
  (fresh.after (fun _ => 0) (serve 1 (.open [97] 0x0100)),
    Holders.empty.after ((serve 1 (.open [97] 0x0100)).run (obliging fun _ => 0) fresh).1)

theorem shared_opened : Shared opened.1 opened.2 := by
  have hends : fresh.Ends (fun _ => 0) (serve 1 (.open [97] 0x0100)) := by decide +kernel
  have ht : Holders.empty.Answered ((serve 1 (.open [97] 0x0100)).run (obliging fun _ => 0) fresh).1 := by
    decide +kernel
  exact ⟨fresh, booted_fresh, .single (.request hends.run ht)⟩

theorem clients_opened : opened.2.clients 0 = [1] := by decide +kernel

/-- The page of entry 0 is mapped by the server and by client 1. -/
def refsOpened : Nat → Nat := fun i => if i = 0 then 2 else 0

/-- The run of a request for 8192 bytes on entry 0. -/
def resize (envid : Nat) : Trace Call Reply × Except Stop Unit × Server :=
  (serve envid (.setSize 0 8192)).run (obliging refsOpened) opened.1

theorem answered_resize : opened.2.Answered (resize 1).1 := by decide +kernel

theorem authorised_iff_opened :
    Authorised opened.2 1 0 opened.1 (resize 1).2.2 (resize 1).1 ↔
      1 ∈ opened.2.clients 0 ∨ opened.2.clients 0 = [] ∨ MAXOPEN ≤ 0 ∨
        (Request.setSize 0 8192).Beyond :=
  authorised_iff (r := (resize 1).2.1) shared_opened rfl rfl answered_resize

/-- Client 2 has not opened the file, and sets its size. -/
theorem not_authorised_stranger :
    ∃ s h envid fileid req w t s', Shared s h ∧ req.fileid = some fileid ∧
      (serve envid req).run w s = (t, .ok (), s') ∧ h.Answered t ∧
      ¬ Authorised h envid fileid s s' t := by
  have hends : opened.1.Ends refsOpened (serve 2 (.setSize 0 8192)) := by decide +kernel
  have ht : opened.2.Answered (resize 2).1 := by decide +kernel
  refine ⟨opened.1, opened.2, 2, 0, .setSize 0 8192, _, _, _, shared_opened, rfl, hends.run, ht, ?_⟩
  rintro (hin | ⟨hsends, -⟩)
  · rw [clients_opened] at hin
    exact absurd hin (by decide)
  · have hval : sends (resize 2).1 = [(2, 0, 0)] := by decide +kernel
    exact absurd (hval.symm.trans hsends) (by decide)

end Mos.Fs
