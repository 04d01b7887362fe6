import Mos.Kern.Effects
import Mos.Mem.PageSpecs

/-!
# The page that comes with a message

Both sends put `PTE_V | perm` into `env_ipc_perm` and wake the target before they
look at `srcva`. What has come with a message is told here by the calls and their
results alone; `ipc_recv` and the file server's loop go by the permission.
-/

namespace Mos

open Lib

variable {k k₁ k' : Kernel} {e c x : EnvIx} {m : Mem} {d p : Nat}
  {envid srcva dstva va perm value status : Word}

/-! ## The receiver (`user/lib/ipc.c`, `fs/serv.c`) -/

structure Message where
  whom : Word
  value : Word
  perm : Word

/-- What `ipc_recv` hands over when its system call has returned. -/
def ipcRecv (env : Env) : Message := ⟨env.envIpcFrom, env.envIpcValue, env.envIpcPerm⟩

def maxFsreqno : Nat := 7

/-- What `serve` makes of a request: it is ignored, or its code is not valid, or an entry of
`serve_table` is called with the argument page. -/
inductive Turn where
  | noPage
  | badCode
  | call (req : Fin maxFsreqno)
  deriving DecidableEq

def serveTurn (msg : Message) : Turn :=
  if msg.perm &&& pteV = 0 then .noPage
  else if h : msg.value.toNat < maxFsreqno then .call ⟨msg.value.toNat, h⟩
  else .badCode

/-! ## Receipts -/

/-- Of the environment in a slot: it is not known to receive, it is in `sys_ipc_recv`, or what ended
its last `sys_ipc_recv` came with a page or without one. -/
inductive Receipt where
  | none
  | awaited
  | over (page : Bool)
  deriving DecidableEq, Repr

abbrev Receipts := EnvIx → Receipt

/-- A send passes its checks and reaches `e`. -/
def Reaches (k : Kernel) (waiting : Env → Bool) (envid srcva : Word) (e : EnvIx) : Prop :=
  ¬ (srcva ≠ 0 ∧ isIllegalVa srcva = true) ∧ target k envid false = some e ∧
    waiting (k.envs e) = true

instance (waiting : Env → Bool) : Decidable (Reaches k waiting envid srcva e) :=
  inferInstanceAs (Decidable (_ ∧ _))

/-- A send that returns 0 has mapped the page at `srcva`, if there is one to be mapped. -/
def mapsPage (k' : Kernel) (srcva : Word) : Bool := srcva != 0 && k'.kstack.regs 2 == 0

/-- What a send says about the environment `e`, whose receipt is `r`. -/
def receiptSend (k k' : Kernel) (waiting : Env → Bool) (envid srcva : Word) (e : EnvIx)
    (r : Receipt) : Option Receipt :=
  if Reaches k waiting envid srcva e ∧ r ≠ .none then some (.over (mapsPage k' srcva)) else .none

/-- What a call of `curenv` says about it. To be woken by `sys_set_env_status` ends a receive without
a page. -/
def receiptCall (k k' : Kernel) (e : EnvIx) (r : Receipt) : Syscall → Option Receipt
  | .ipcRecv dstva =>
    if k.curenv = some e ∧ ¬ (dstva ≠ 0 ∧ isIllegalVa dstva = true) then some .awaited else .none
  | .recvReturnValue => if k.curenv = some e then some .none else .none
  | .ipcTrySend envid _ srcva _ =>
    receiptSend k k' (fun env => env.envIpcRecving == 1) envid srcva e r
  | .sendReturnValue envid _ srcva _ =>
    receiptSend k k' (fun env => env.waitingReturnValue == 1) envid srcva e r
  | .setEnvStatus envid status =>
    if status = 1 ∧ target k envid true = some e ∧ r = .awaited then some (.over false) else .none
  | _ => .none

/-- The receipts after a call of `curenv`: a slot without an environment, or with a new one, has
none. -/
def Receipts.call (g : Receipts) (s : Syscall) (k k' : Kernel) : Receipts := fun e =>
  if (k.envs e).envStatus = .free ∨ (k'.envs e).envStatus = .free then .none
  else (receiptCall k k' e (g e) s).getD (g e)

def Receipts.follow (op : Op) (k k' : Kernel) (g : Receipts) : Receipts :=
  match op with
  | .syscall f inp =>
    match Syscall.ofFrame f inp with
    | some s => g.call s k k'
    | none => g
  | _ => g

/-- The machine with the receipts. -/
def inbox : System (Kernel × Receipts) Op := mos.watch (fun _ => .none) Receipts.follow

/-- The permission says whether a page has come. -/
def Truthful (env : Env) (r : Receipt) : Prop :=
  ∀ page, r = .over page → (env.envIpcPerm &&& pteV ≠ 0 ↔ page = true)

/-! ## `page_insert` has room -/

/-- `page_insert` needs no memory for the page `p` at `va`, or there is some: `p` is there already,
or a page is free, or the page table is there (and removing what is at `va` does not remove it). -/
def Room (m : Mem) (d : Nat) (va : Word) (p : Nat) : Prop :=
  (m.lookup d va).map Prod.fst = some p ∨ m.pageFreeList ≠ [] ∨
    ∃ t, entry (m.phys d (pdx va)) = some t ∧ (t, ptx va) ≠ (d, pdx va)

/-- `page_insert` can get a page table. -/
def Supplied (m : Mem) (d : Nat) (va : Word) : Prop :=
  m.pageFreeList ≠ [] ∨ pteValid (m.phys d (pdx va)) = true

/-- No error code. -/
def NoErrno (f : Fault) : Prop := ∀ err, f ≠ .errno err

theorem BadAddress.noErrno {f : Fault} (h : BadAddress f) : NoErrno f := by
  rcases h with rfl | rfl
  · simp [NoErrno]
  · simp [NoErrno]

theorem Asserts.noErrno {f : Fault} (h : Asserts f) : NoErrno f := by
  rcases h with rfl | rfl
  · simp [NoErrno]
  · simp [NoErrno]

theorem pgdirWalk_supplied (h : Supplied m d va) : wp (pgdirWalk d va true)
    (fun r _ => r ≠ none) (fun f _ => NoErrno f) m := by
  have hpte : ∀ m₁, wp (pteOf d va) (fun r _ => r ≠ none) (fun f _ => NoErrno f) m₁ := by
    intro m₁
    refine wp_mono (pteOf_spec m₁ d va) ?_ (fun _ _ h => h.2.noErrno)
    rintro r m₂ ⟨-, rfl⟩
    simp
  unfold pgdirWalk
  rw [wp_bind, wp_readPte]
  split
  case isTrue => exact hpte m
  case isFalse hv =>
    have hfree := h.resolve_right hv
    rw [if_pos rfl]
    unfold pageAlloc
    simp only [wp_bind, wp_get]
    split
    case h_1 hnil => exact absurd hnil hfree
    case h_2 =>
      simp only [wp_bind, wp_modify]
      refine wp_mono (kaddr_spec _ _) ?_ (fun _ _ h => h.2.noErrno)
      rintro f m₁ ⟨rfl, rfl⟩
      simp only [wp_pure, wp_writePte]
      exact hpte _

theorem pageInsertNew_supplied {asid : Nat} (h : Supplied m d va) :
    wp (pageInsertNew d asid p va perm) (fun _ _ => True) (fun f _ => NoErrno f) m := by
  have hflush : Supplied (m.flush asid va) d va := h
  unfold pageInsertNew
  rw [wp_bind, wp_tlbInvalidate, wp_bind]
  refine wp_mono (pgdirWalk_supplied hflush) ?_ (fun _ _ h => h)
  intro r m₁ hr
  cases r with
  | none => exact absurd rfl hr
  | some pte =>
    simp only [wp_bind, wp_modify, wp_writePte]

theorem pageDecref_any (m : Mem) (p : Nat) : wp (pageDecref p)
    (fun _ m' => m'.phys = m.phys ∧ (m.pageFreeList ≠ [] → m'.pageFreeList ≠ []))
    (fun f _ => NoErrno f) m := by
  unfold pageDecref pageFree
  simp only [wp_bind, wp_get, wp_ite, wp_throw, wp_modify, wp_pure]
  refine ⟨fun _ => Asserts.noErrno (Or.inr rfl), fun _ => ⟨fun _ => ⟨?_, fun _ => ?_⟩, fun _ => ?_⟩⟩
  · exact fun _ => Asserts.noErrno (Or.inl rfl)
  · exact ⟨rfl, fun _ => by simp⟩
  · exact ⟨rfl, fun hne => hne⟩

/-- What was there is removed, and the page table stays. -/
theorem pageRemove_supplied {asid : Nat} {q : Nat} {pte : PtePtr} (hl : m.lookup d va = some (q, pte))
    (h : m.pageFreeList ≠ [] ∨ ∃ t, entry (m.phys d (pdx va)) = some t ∧ (t, ptx va) ≠ (d, pdx va)) :
    wp (pageRemove d asid va) (fun _ m' => Supplied m' d va) (fun f _ => NoErrno f) m := by
  unfold pageRemove
  rw [wp_bind]
  refine wp_mono (pageLookup_spec m d va) ?_ (fun _ _ h => h.2.noErrno)
  rintro r m₁ ⟨rfl, rfl⟩
  rw [hl]
  simp only [wp_bind]
  refine wp_mono (pageDecref_any m₁ q) ?_ (fun _ _ h => h)
  rintro _ m₂ ⟨hphys, hfree⟩
  rw [wp_writePte, wp_tlbInvalidate]
  rcases h with hne | ⟨t, ht, hself⟩
  · exact Or.inl (hfree hne)
  · right
    obtain ⟨y, hwalk, hmap⟩ := Option.bind_eq_some_iff.mp hl
    obtain ⟨q', -, hpair⟩ := Option.map_eq_some_iff.mp hmap
    obtain ⟨rfl, rfl⟩ := Prod.mk.inj hpair
    obtain ⟨t', ht', rfl⟩ := Option.map_eq_some_iff.mp hwalk
    obtain rfl : t = t' := Option.some.inj (ht.symm.trans ht')
    have hkeep : ((m₂.store t (ptx va) 0).flush asid va).phys d (pdx va) = m₁.phys d (pdx va) := by
      rw [Mem.flush_phys, Mem.store_phys, hphys]
      by_cases htd : d = t
      · have hj : pdx va ≠ ptx va := fun hj => hself (by rw [htd, hj])
        rw [htd, Function.update_self, Function.update_of_ne hj]
      · rw [Function.update_of_ne htd]
    rw [hkeep]
    exact (entry_some.mp ht).1

theorem pageInsert_room {asid : Nat} (h : Room m d va p) :
    wp (pageInsert d asid p va perm) (fun _ _ => True) (fun f _ => NoErrno f) m := by
  have hsupplied : m.lookup d va = none → Supplied m d va := by
    intro hl
    rcases h with hp | hfree | ⟨t, ht, -⟩
    · rw [hl] at hp
      cases hp
    · exact Or.inl hfree
    · exact Or.inr (entry_some.mp ht).1
  cases hl : m.lookup d va with
  | none =>
    exact pageInsert_none hl (fun _ hbad => hbad.noErrno) (pageInsertNew_supplied (hsupplied hl))
  | some r =>
    obtain ⟨q, pte⟩ := r
    obtain ⟨y, hwalk, hmap⟩ := Option.bind_eq_some_iff.mp hl
    obtain ⟨q', hq, hpair⟩ := Option.map_eq_some_iff.mp hmap
    obtain ⟨rfl, rfl⟩ := Prod.mk.inj hpair
    obtain ⟨hv, hppn⟩ := entry_some.mp hq
    unfold pageInsert
    rw [wp_bind]
    refine wp_mono (pgdirWalk_spec m d va) ?_ (fun _ _ h => h.2.noErrno)
    rintro r m₁ ⟨rfl, rfl⟩
    rw [hwalk]
    simp only [wp_bind, wp_readPte, if_pos hv]
    refine wp_mono (pa2page_spec m₁ _) ?_ (fun _ _ h => h.2.noErrno)
    rintro r m₂ ⟨rfl, rfl⟩
    rw [hppn]
    split
    case isTrue hne =>
      rw [wp_bind]
      have hroom := h.resolve_left fun hp => by
        rw [hl] at hp
        exact hne (Option.some.inj hp)
      refine wp_mono (pageRemove_supplied hl hroom) ?_ (fun _ _ h => h)
      exact fun _ _ h => pageInsertNew_supplied h
    case isFalse =>
      rw [wp_bind, wp_tlbInvalidate, wp_writePte]
      trivial

/-! ## A send that carries its page -/

/-- The sender names a page that it has, and there is room for it at the target. -/
def Carries (k : Kernel) (c e : EnvIx) (srcva : Word) : Prop :=
  srcva ≠ 0 ∧ ∃ p pte, k.mem.lookup (k.envs c).envPgdir srcva = some (p, pte) ∧
    Room k.mem (k.envs e).envPgdir (k.envs e).envIpcDstva p

theorem mapSent_carries (hc : k.curenv = some c) (h : Carries k c e srcva) :
    wp (mapSent e srcva perm) (fun _ _ => True) (fun err _ => Halts err) k := by
  obtain ⟨-, p, pte, hl, hroom⟩ := h
  have hhalts : ∀ f, NoErrno f → Halts (.fault f) := by
    intro f hf
    cases f with
    | errno err => exact absurd rfl (hf err)
    | panic | wild => trivial
  unfold mapSent
  rw [wp_bind]
  refine wp_curenvPtr (fun c' hc' => ?_) (fun hn => nomatch hn.symm.trans hc)
  obtain rfl : c = c' := Option.some.inj (hc.symm.trans hc')
  rw [wp_bind, wp_get, wp_bind, wp_onMem]
  refine wp_mono (pageLookup_spec k.mem _ srcva) ?_ (fun f _ h => hhalts f h.2.noErrno)
  rintro r m ⟨rfl, rfl⟩
  rw [hl]
  simp only [wp_bind, wp_get, wp_onMem]
  exact wp_mono (pageInsert_room hroom) (fun _ _ _ => trivial) fun f _ h => hhalts f h

theorem send_carries {waiting : Env → Bool} {deliver : Word → Env → Env}
    (hready : Ready k waiting envid srcva c e)
    (hdeliver : ∀ w env, (deliver w env).envPgdir = env.envPgdir ∧
      (deliver w env).envIpcDstva = env.envIpcDstva)
    (h : Carries k c e srcva) : wp (send waiting deliver envid srcva perm) (fun v _ => v = 0)
      (fun err _ => Halts err) k := by
  unfold send
  simp only [wp_bind, wp_ite, wp_throw]
  refine ⟨fun hill => absurd hill hready.legal, fun _ => ?_⟩
  refine wp_mono (envid2env_spec k envid false) ?_ ?_
  · rintro e' k₁ ⟨rfl, he'⟩
    obtain rfl : e = e' := Option.some.inj (hready.target.symm.trans he')
    simp only [wp_get]
    refine ⟨fun hw => absurd hready.waiting (by simpa using hw), fun _ => ?_⟩
    refine wp_curenvPtr (fun c' hc' => ?_) (fun hn => by cases hn.symm.trans hready.cur)
    obtain rfl : c = c' := Option.some.inj (hready.cur.symm.trans hc')
    simp only [wp_updEnv]
    unfold wakeAndMap
    rw [wp_bind, wp_updEnv, wp_bind]
    refine wp_mono (schedInsertTail_spec _ e) ?_ (fun _ _ h => h.elim)
    rintro _ _ ⟨q, b, rfl⟩
    simp only [wp_bind, wp_ite, wp_pure]
    refine ⟨fun _ => ?_, fun _ => trivial⟩
    refine wp_mono (mapSent_carries (c := c) hready.cur ?_) (fun _ _ _ => trivial)
      (fun _ _ h => h)
    obtain ⟨hne, p, pte, hl, hroom⟩ := h
    refine ⟨hne, p, pte, ?_, ?_⟩
    · rcases eq_or_ne c e with rfl | hce
      · simpa [(hdeliver _ _).1] using hl
      · simpa [hce] using hl
    · simpa [(hdeliver _ _).1, (hdeliver _ _).2] using hroom
  · rintro err k₁ ⟨rfl, -, hnone⟩
    cases hnone.symm.trans hready.target

theorem carries_maps {waiting : Env → Bool} {deliver : Word → Env → Env} {inp : Inputs} {s : Syscall}
    (hrun : s.run inp = send waiting deliver envid srcva perm)
    (hdeliver : ∀ w env, (deliver w env).envPgdir = env.envPgdir ∧
      (deliver w env).envIpcDstva = env.envIpcDstva)
    (hready : Ready k waiting envid srcva c e) (h : Carries k c e srcva) (he : Ends inp s k k') :
    mapsPage k' srcva = true := by
  have hw : wp (send waiting deliver envid srcva perm) (fun v _ => v = 0) (fun err _ => Halts err) k :=
    send_carries hready hdeliver h
  rw [← hrun] at hw
  rcases he.spec hw with ⟨v, k₁, rfl, rfl⟩ | ⟨err, _, hh, _⟩ | hh | ⟨_, hh, _⟩
  · unfold mapsPage
    rw [returned_v0]
    simpa using h.1
  · exact hh.elim
  · exact hh.elim
  · exact hh.elim

/-! ## One step -/

/-- The permission of an environment is as it was, or the call is a send that reaches it. -/
theorem perm_effect {inp : Inputs} {s : Syscall} (h : Effect k inp s k') (x : EnvIx) :
    (k'.envs x).envIpcPerm = (k.envs x).envIpcPerm ∨
    (∃ envid value srcva perm, s = .ipcTrySend envid value srcva perm ∧
      Reaches k (fun env => env.envIpcRecving == 1) envid srcva x) ∨
    ∃ envid value srcva perm, s = .sendReturnValue envid value srcva perm ∧
      Reaches k (fun env => env.waitingReturnValue == 1) envid srcva x := by
  have hswitch : ∀ {k₀ k₁ : Kernel} {e}, k₁.envs = k₀.envs → Switched k₁ e k' →
      (k'.envs x).envIpcPerm = (k₀.envs x).envIpcPerm := by
    intro k₀ k₁ e henvs hs
    rw [hs.envs, Env.switched, henvs]
  have hone : ∀ {k₁ : Kernel} {e} {f : Env → Env}, k₁.envs = (k.setEnv e f).envs →
      (f (k.envs e)).envIpcPerm = (k.envs e).envIpcPerm →
      (k₁.envs x).envIpcPerm = (k.envs x).envIpcPerm := by
    intro k₁ e f henvs hf
    rw [henvs, Kernel.setEnv_envs]
    rcases eq_or_ne x e with rfl | hx
    · simpa using hf
    · simp [hx]
  have hgone : ∀ e, ((k.released e).envs x).envIpcPerm = (k.envs x).envIpcPerm := fun e =>
    @hone (k.released e) e (fun env => { env with envStatus := .free }) rfl rfl
  cases h with
  | quiet _ same | refused same _ | refusedReturn same _ _ =>
    left
    rw [same.envs]
  | yield same switched =>
    left
    rw [hswitch rfl switched, same.envs]
  | setTlbModEntry _ state | forkFails _ state | setStatus _ _ state | setFrame _ _ _ state =>
    exact Or.inl (hone state.envs rfl)
  | @fork c e pgdir asid id _ _ _ _ _ state =>
    left
    refine @hone k' e (fun env => (env.alloc pgdir asid id (k.envs c).envId).fork (k.envs c) k.kstack)
      ?_ rfl
    rw [state.envs]
    rfl
  | destroy _ _ state | kill _ _ _ _ state =>
    left
    rw [state.envs, hgone]
  | destroySelf _ _ state switched | killSelf _ _ _ _ state switched =>
    left
    rw [hswitch rfl switched, state.envs]
    exact hgone _
  | recv _ waits | recvReturn waits =>
    obtain ⟨k₀, e, same, switched⟩ := waits.switched
    exact Or.inl ((hswitch rfl switched).trans (hone same.envs rfl))
  | @send envid value srcva perm ok c e _ sent =>
    rcases eq_or_ne x e with rfl | hx
    · exact Or.inr (Or.inl ⟨_, _, _, _, rfl, sent.legal, sent.target, sent.waiting⟩)
    · left
      rw [sent.state.envs]
      simp [hx]
  | @sendReturn envid value srcva perm ok c e _ sent =>
    rcases eq_or_ne x e with rfl | hx
    · exact Or.inr (Or.inr ⟨_, _, _, _, rfl, sent.legal, sent.target, sent.waiting⟩)
    · left
      rw [sent.state.envs]
      simp [hx]

/-- A call of `curenv` that lets no receive end without a page but with `PTE_V`: the sends to a
receiver carry their page, and who is woken from a receive has not got `PTE_V` from an earlier one. -/
def CallCarries (k : Kernel) (g : Receipts) : Syscall → Prop
  | .ipcTrySend envid _ srcva _ => ∀ c e, k.curenv = some c → g e ≠ .none →
      Reaches k (fun env => env.envIpcRecving == 1) envid srcva e → Carries k c e srcva
  | .sendReturnValue envid _ srcva _ => ∀ c e, k.curenv = some c → g e ≠ .none →
      Reaches k (fun env => env.waitingReturnValue == 1) envid srcva e → Carries k c e srcva
  | .setEnvStatus envid status => status = 1 → ∀ e, target k envid true = some e → g e = .awaited →
      (k.envs e).envIpcPerm &&& pteV = 0
  | _ => True

theorem Truthful.of_perm {env env' : Env} {r : Receipt} (h : Truthful env r)
    (hperm : env'.envIpcPerm = env.envIpcPerm) : Truthful env' r := by
  unfold Truthful
  rw [hperm]
  exact h

theorem truthful_none (env : Env) : Truthful env .none := by
  rintro page ⟨⟩

theorem truthful_awaited (env : Env) : Truthful env .awaited := by
  rintro page ⟨⟩

theorem truthful_send {waiting : Env → Bool} {deliver : Word → Env → Env} {inp : Inputs} {s : Syscall}
    (hrun : s.run inp = send waiting deliver envid srcva perm)
    (hdeliver : ∀ w env, (deliver w env).envPgdir = env.envPgdir ∧
      (deliver w env).envIpcDstva = env.envIpcDstva)
    (hperm : ∀ w env, (deliver w env).envIpcPerm = pteV ||| perm) (hcur : k.curenv = some c)
    (hreach : Reaches k waiting envid srcva e) (h : Carries k c e srcva) (hend : Ends inp s k k') :
    Truthful (k'.envs e) (.over (mapsPage k' srcva)) := by
  have hready : Ready k waiting envid srcva c e := ⟨hreach.1, hreach.2.1, hreach.2.2, hcur⟩
  have hvalid : (pteV ||| perm) &&& pteV ≠ 0 := by
    have hv : pteValid (pteV ||| perm) = true := by
      have hself : pteValid pteV = true := by decide
      rw [pteValid_or, hself, Bool.true_or]
    simpa [pteValid] using hv
  rcases ends_send waiting deliver hrun hend with ⟨-, -, hnot⟩ | ⟨ok, c', e', hd⟩
  · exact absurd hready (hnot c e)
  · obtain rfl : e = e' := Option.some.inj (hready.target.symm.trans hd.target)
    rintro page hpage
    obtain rfl := Receipt.over.inj hpage
    rw [carries_maps hrun hdeliver hready h hend, hd.state.envs]
    simpa [hperm] using hvalid

/-- Either send, for everyone. -/
theorem truthful_sent {waiting : Env → Bool} {deliver : Word → Env → Env} {inp : Inputs} {s : Syscall}
    {r : Receipt} (hrun : s.run inp = send waiting deliver envid srcva perm)
    (hdeliver : ∀ w env, (deliver w env).envPgdir = env.envPgdir ∧
      (deliver w env).envIpcDstva = env.envIpcDstva)
    (hperm : ∀ w env, (deliver w env).envIpcPerm = pteV ||| perm) (hcur : k.curenv = some c)
    (hcarry : r ≠ .none → Reaches k waiting envid srcva x → Carries k c x srcva)
    (hend : Ends inp s k k') (hi : Truthful (k.envs x) r)
    (hsame : (k'.envs x).envIpcPerm = (k.envs x).envIpcPerm ∨ Reaches k waiting envid srcva x) :
    Truthful (k'.envs x) ((receiptSend k k' waiting envid srcva x r).getD r) := by
  unfold receiptSend
  split
  case isTrue h => exact truthful_send hrun hdeliver hperm hcur h.1 (hcarry h.2 h.1) hend
  case isFalse h =>
    by_cases hr : r = .none
    · rw [hr]
      exact truthful_none _
    · exact hi.of_perm (hsame.resolve_right fun hreach => h ⟨hreach, hr⟩)

theorem truthful_call {inp : Inputs} {s : Syscall} {g : Receipts} (hcur : k.curenv = some c)
    (hcarry : CallCarries k g s) (hend : Ends inp s k k') (hi : ∀ e, Truthful (k.envs e) (g e)) :
    ∀ e, Truthful (k'.envs e) (g.call s k k' e) := by
  intro x
  unfold Receipts.call
  split
  case isTrue => exact truthful_none _
  case isFalse =>
    have hperm := perm_effect (effect_of_ends hend) x
    cases s with
    | ipcTrySend envid value srcva perm =>
      have hrun : Syscall.run inp (.ipcTrySend envid value srcva perm) =
          send (fun env => env.envIpcRecving == 1) (Env.sent value perm) envid srcva perm := rfl
      refine truthful_sent hrun (fun _ _ => ⟨rfl, rfl⟩) (fun _ _ => rfl) hcur (hcarry c x hcur) hend
        (hi x) ?_
      rcases hperm with hsame | ⟨_, _, _, _, heq, hreach⟩ | ⟨_, _, _, _, heq, _⟩
      · exact Or.inl hsame
      · obtain ⟨rfl, rfl, rfl, rfl⟩ := Syscall.ipcTrySend.inj heq
        exact Or.inr hreach
      · cases heq
    | sendReturnValue envid value srcva perm =>
      have hrun : Syscall.run inp (.sendReturnValue envid value srcva perm) =
          send (fun env => env.waitingReturnValue == 1) (Env.sentReturn value perm) envid srcva perm := rfl
      refine truthful_sent hrun (fun _ _ => ⟨rfl, rfl⟩) (fun _ _ => rfl) hcur (hcarry c x hcur) hend
        (hi x) ?_
      rcases hperm with hsame | ⟨_, _, _, _, heq, _⟩ | ⟨_, _, _, _, heq, hreach⟩
      · exact Or.inl hsame
      · cases heq
      · obtain ⟨rfl, rfl, rfl, rfl⟩ := Syscall.sendReturnValue.inj heq
        exact Or.inr hreach
    | ipcRecv dstva =>
      have hsame : (k'.envs x).envIpcPerm = (k.envs x).envIpcPerm := by simpa using hperm
      show Truthful _ (Option.getD (if _ then _ else _) _)
      split
      · exact truthful_awaited _
      · exact (hi x).of_perm hsame
    | recvReturnValue =>
      have hsame : (k'.envs x).envIpcPerm = (k.envs x).envIpcPerm := by simpa using hperm
      show Truthful _ (Option.getD (if _ then _ else _) _)
      split
      · exact truthful_none _
      · exact (hi x).of_perm hsame
    | setEnvStatus envid status =>
      have hsame : (k'.envs x).envIpcPerm = (k.envs x).envIpcPerm := by simpa using hperm
      show Truthful _ (Option.getD (if _ then _ else _) _)
      split
      case isTrue h =>
        rintro page hpage
        obtain rfl := Receipt.over.inj hpage
        rw [hsame]
        simpa using hcarry h.1 x h.2.1 h.2.2
      case isFalse => exact (hi x).of_perm hsame
    | _ => exact (hi x).of_perm (by simpa using hperm)

/-! ## Runs -/

/-- The system calls of the step are such calls. -/
def Carrying (p : Kernel × Receipts) (op : Op) : Prop :=
  ∀ f inp s, op = .syscall f inp → Syscall.ofFrame f inp = some s → CallCarries p.1 p.2 s

theorem truthful_next {op : Op} {g : Receipts} (hi : ∀ e, Truthful (k.envs e) (g e))
    (hcarry : Carrying (k, g) op) (h : next op k = some k') :
    ∀ e, Truthful (k'.envs e) (g.follow op k k' e) := by
  by_cases hop : ∃ f inp, op = .syscall f inp
  · obtain ⟨f, inp, rfl⟩ := hop
    cases hs : Syscall.ofFrame f inp with
    | none =>
      have hk := unknown_next hs h
      intro e
      simp only [Receipts.follow, hs]
      rw [hk]
      exact hi e
    | some s =>
      obtain ⟨hen, -⟩ := next_cases h
      obtain ⟨c, hc⟩ := Option.isSome_iff_exists.mp (Bool.and_eq_true_iff.mp hen).1
      have hcall := hcarry f inp s rfl hs
      simp only [Receipts.follow, hs]
      refine truthful_call (k := k.entered f) (c := c) hc ?_ (doSyscall_ends hs h) hi
      cases s with
      | ipcTrySend | sendReturnValue | setEnvStatus => exact hcall
      | _ => trivial
  · have hop' : ∀ f inp, op ≠ .syscall f inp := fun f inp h => hop ⟨f, inp, h⟩
    have hfollow : g.follow op k k' = g := by
      cases op with
      | syscall f inp => exact absurd rfl (hop' f inp)
      | _ => rfl
    intro e
    rw [hfollow]
    rcases other_next hop' h with hsame | ⟨k₀, e', hsame, hs⟩
    · rw [hsame.envs]
      exact hi e
    · refine (hi e).of_perm ?_
      rw [hs.envs, Env.switched, hsame.envs]

theorem serveTurn_noPage {msg : Message} : serveTurn msg = .noPage ↔ msg.perm &&& pteV = 0 := by
  unfold serveTurn
  split
  case isTrue h => simpa using h
  case isFalse h =>
    split
    · simpa using h
    · simpa using h

/-- In a run of such calls the permission of whoever has come out of `sys_ipc_recv` says whether the
send mapped a page, and the file server calls a function only if it did and ignores the request
otherwise. -/
theorem page_reported {g : Receipts} (h : inbox.Run Carrying (k, g)) :
    ∀ e page, g e = .over page →
      ((ipcRecv (k.envs e)).perm &&& pteV ≠ 0 ↔ page = true) ∧
      ((∃ req, serveTurn (ipcRecv (k.envs e)) = .call req) → page = true) ∧
      (page = false → serveTurn (ipcRecv (k.envs e)) = .noPage) := by
  have hi : ∀ e, Truthful (k.envs e) (g e) := by
    refine h.invariant (I := fun p => ∀ e, Truthful (p.1.envs e) (p.2 e)) ?_ ?_
    · rintro ⟨k, g⟩ ⟨-, rfl⟩ e
      exact truthful_none _
    · rintro ⟨k, g⟩ op ⟨k', g'⟩ hi hcarry hs
      obtain ⟨hnext, hg⟩ := System.watch_next hs
      have hg : g' = g.follow op k k' := hg
      rw [hg]
      exact truthful_next hi hcarry hnext
  intro e page hpage
  have htruth := hi e page hpage
  refine ⟨htruth, ?_, ?_⟩
  · rintro ⟨req, hreq⟩
    rw [← htruth]
    intro hv
    exact nomatch (serveTurn_noPage.mpr hv).symm.trans hreq
  · rintro rfl
    rw [serveTurn_noPage]
    by_contra hv
    exact nomatch htruth.mp hv

/-! ## Runs of the small machine -/

/-- The argument page of the file server. -/
def reqva : Word := 0x0ffff000

/-- The small machine with two programs; the second one is in `sys_ipc_recv(REQVA)`. -/
def serverWaits : Option (Kernel × Receipts) :=
  (boot smallMachine [(bareLoop, 1), (bareLoop, 1)]).bind fun k =>
    inbox.exec [.start, callOp 14 reqva 0 0] (k, fun _ => .none)

theorem serverWaits_run {p : Kernel × Receipts} (h : serverWaits = some p) : inbox.Run Carrying p := by
  obtain ⟨k, hk, hrun⟩ := Option.bind_eq_some_iff.mp h
  obtain ⟨p₁, h₁, hrun⟩ := Option.bind_eq_some_iff.mp hrun
  obtain ⟨p₂, h₂, hrun⟩ := Option.bind_eq_some_iff.mp hrun
  obtain rfl := Option.some.inj hrun
  have h₀ : inbox.Run Carrying (k, fun _ => .none) := .init ⟨⟨_, _, hk⟩, rfl⟩
  refine .step (.step h₀ ?_ h₁) ?_ h₂
  · rintro f inp s ⟨⟩
  · rintro f inp s ⟨⟩ hs
    obtain rfl := Option.some.inj hs
    trivial

/-- The first program sends its own page. -/
theorem page_reported_sent : ∃ k g, inbox.Run Carrying (k, g) ∧ g 1 = .over true ∧
    ∀ e page, g e = .over page →
      ((ipcRecv (k.envs e)).perm &&& pteV ≠ 0 ↔ page = true) ∧
      ((∃ req, serveTurn (ipcRecv (k.envs e)) = .call req) → page = true) ∧
      (page = false → serveTurn (ipcRecv (k.envs e)) = .noPage) := by
  have hcheck : (serverWaits.any fun p => p.1.curenv == some 0 &&
      target p.1 4097 false == some 1 && p.1.mem.pageFreeList != [] &&
      (p.1.mem.lookup (p.1.envs 0).envPgdir utext).isSome &&
      (inbox.next (callOp 13 4097 2 utext) p).any fun p' => p'.2 1 == .over true) = true := by
    decide +kernel
  obtain ⟨p, hp, hcheck⟩ := (Option.any_eq_true _ _).mp hcheck
  simp only [Bool.and_eq_true, beq_iff_eq, bne_iff_ne, Option.isSome_iff_exists,
    Option.any_eq_true] at hcheck
  obtain ⟨⟨⟨⟨hcur, htarget⟩, hfree⟩, ⟨q, pte⟩, hl⟩, ⟨k, g⟩, hnext, hg⟩ := hcheck
  have hrun : inbox.Run Carrying (k, g) := by
    refine .step (serverWaits_run hp) ?_ hnext
    rintro f inp s ⟨⟩ hs
    obtain rfl := Option.some.inj hs
    rintro c e hc - ⟨-, he, -⟩
    obtain rfl : 0 = c := Option.some.inj (hcur.symm.trans hc)
    obtain rfl : 1 = e := Option.some.inj (htarget.symm.trans he)
    exact ⟨by decide, q, pte, hl, Or.inr (Or.inl hfree)⟩
  exact ⟨k, g, hrun, hg, page_reported hrun⟩

/-- The first program sends a request without a page, and the server calls `serve_table[2]`. -/
theorem not_page_reported : ∃ k g, inbox.Reachable (k, g) ∧ g 1 = .over false ∧
    (ipcRecv (k.envs 1)).perm &&& pteV ≠ 0 ∧ serveTurn (ipcRecv (k.envs 1)) = .call ⟨2, by decide⟩ := by
  have hcheck : (serverWaits.any fun p => (inbox.next (callOp 13 4097 2 0) p).any fun p' =>
      p'.2 1 == .over false && (ipcRecv (p'.1.envs 1)).perm &&& pteV != 0 &&
        serveTurn (ipcRecv (p'.1.envs 1)) == .call ⟨2, by decide⟩) = true := by
    decide +kernel
  obtain ⟨p, hp, hcheck⟩ := (Option.any_eq_true _ _).mp hcheck
  obtain ⟨⟨k, g⟩, hnext, hcheck⟩ := (Option.any_eq_true _ _).mp hcheck
  simp only [Bool.and_eq_true, beq_iff_eq, bne_iff_ne] at hcheck
  obtain ⟨⟨hg, hperm⟩, hturn⟩ := hcheck
  exact ⟨k, g, .step (serverWaits_run hp).reachable trivial hnext, hg, hperm, hturn⟩

end Mos
