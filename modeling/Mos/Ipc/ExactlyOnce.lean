import Mos.Kern.Effects

/-!
# A message is received exactly once

The abstract model is one letter box for each environment. It follows the calls
and their results only, not the flags in `struct Env`; the invariant says that
the flags agree with it. `env_alloc` does not clear the flags that a slot was
left with, and `sys_set_env_status` wakes an environment that has one set:
`IpcSafe` excludes both.
-/

namespace Mos

open Lib

variable {k k₁ k' : Kernel} {e c x : EnvIx}

/-! ## Letter boxes -/

/-- Of the environment in a slot: its last receive is `sys_ipc_recv`, and nothing has come of it
yet; a send of this value and sender has ended that call; anything else. -/
inductive LetterBox where
  | idle
  | receiving
  | received (value sender : Word)
  deriving DecidableEq, Repr

/-- The environment runs again: its receive is over. -/
def LetterBox.resumed : LetterBox → LetterBox
  | .receiving => .idle
  | b => b

abbrev Letters := EnvIx → LetterBox

/-- What a call of `curenv` says about the environment `e`: it waits, or a send to it has returned
0. -/
def heardCall (k k' : Kernel) (e : EnvIx) : Syscall → Option LetterBox
  | .ipcRecv dstva =>
    if k.curenv = some e ∧ ¬ (dstva ≠ 0 ∧ isIllegalVa dstva = true) then some .receiving else none
  | .recvReturnValue => if k.curenv = some e then some .idle else none
  | .ipcTrySend envid value _ _ =>
    if target k envid false = some e ∧ k'.kstack.regs 2 = 0 then
      k.curenv.map fun c => .received value (k.envs c).envId
    else none
  | _ => none

@[simp] theorem heardCall_ipcRecv (dstva : Word) : heardCall k k' e (.ipcRecv dstva) =
    if k.curenv = some e ∧ ¬ (dstva ≠ 0 ∧ isIllegalVa dstva = true) then some .receiving
    else none := rfl

@[simp] theorem heardCall_recvReturnValue : heardCall k k' e .recvReturnValue =
    if k.curenv = some e then some .idle else none := rfl

@[simp] theorem heardCall_ipcTrySend (envid value srcva perm : Word) :
    heardCall k k' e (.ipcTrySend envid value srcva perm) =
      if target k envid false = some e ∧ k'.kstack.regs 2 = 0 then
        k.curenv.map fun c => .received value (k.envs c).envId
      else none := rfl

def heard (op : Op) (k k' : Kernel) (e : EnvIx) : Option LetterBox :=
  match op with
  | .syscall f inp => (Syscall.ofFrame f inp).bind (heardCall k k' e)
  | _ => none

/-- The box of an environment after a call, before anyone runs again: a slot without an environment,
or with a new one, has an empty box. -/
def boxAfter (before after : EnvStatus) (heard : Option LetterBox) (b : LetterBox) : LetterBox :=
  if before = .free ∨ after = .free then .idle else heard.getD b

theorem boxAfter_free (before : EnvStatus) (h : Option LetterBox) (b : LetterBox) :
    boxAfter before .free h b = .idle := by
  unfold boxAfter
  rw [if_pos (Or.inr rfl)]

theorem boxAfter_live {before after : EnvStatus} (hb : before ≠ .free) (ha : after ≠ .free)
    (h : Option LetterBox) (b : LetterBox) : boxAfter before after h b = h.getD b := by
  unfold boxAfter
  rw [if_neg (by simp [hb, ha])]

def observe (op : Op) (k k' : Kernel) (g : Letters) : Letters := fun e =>
  let b := boxAfter (k.envs e).envStatus (k'.envs e).envStatus (heard op k k' e) (g e)
  if k'.curenv = some e then b.resumed else b

/-- The machine with its letter boxes. -/
def post : System (Kernel × Letters) Op := mos.watch (fun _ => .idle) observe

/-! ## The invariant -/

def Env.flagged (env : Env) : Prop := env.envIpcRecving = 1 ∨ env.waitingReturnValue = 1

/-- The flags of an environment agree with its box. -/
structure BoxOk (running : Prop) (env : Env) (b : LetterBox) : Prop where
  running : running → env.envStatus ≠ .free ∧ ¬ env.flagged
  recving : env.envStatus ≠ .free → env.envIpcRecving = 1 →
    env.envStatus = .notRunnable ∧ b = .receiving ∧ env.waitingReturnValue ≠ 1
  waiting : env.envStatus ≠ .free → env.waitingReturnValue = 1 →
    env.envStatus = .notRunnable ∧ b = .idle
  letter : ∀ v s, b = .received v s →
    env.envStatus ≠ .free ∧ env.envIpcValue = v ∧ env.envIpcFrom = s

def PostInv (k : Kernel) (g : Letters) : Prop :=
  ∀ e, BoxOk (k.curenv = some e) (k.envs e) (g e)

namespace BoxOk

variable {p q : Prop} {env env' : Env} {b : LetterBox}

theorem runnable_clear (h : BoxOk p env b) (hr : env.envStatus = .runnable) : ¬ env.flagged := by
  have hlive : env.envStatus ≠ .free := by simp [hr]
  rintro (hf | hf)
  · have hn := (h.recving hlive hf).1
    simp [hr] at hn
  · have hn := (h.waiting hlive hf).1
    simp [hr] at hn

theorem congr (h : BoxOk p env b) (hst : env'.envStatus = env.envStatus)
    (hr : env'.envIpcRecving = env.envIpcRecving)
    (hw : env'.waitingReturnValue = env.waitingReturnValue)
    (hv : env'.envIpcValue = env.envIpcValue) (hs : env'.envIpcFrom = env.envIpcFrom) :
    BoxOk p env' b := by
  constructor
  · unfold Env.flagged
    rw [hst, hr, hw]
    exact h.running
  · rw [hst, hr, hw]
    exact h.recving
  · rw [hst, hw]
    exact h.waiting
  · rw [hst, hv, hs]
    exact h.letter

theorem resume (h : BoxOk p env b) (hq : q → env.envStatus ≠ .free ∧ ¬ env.flagged) [Decidable q] :
    BoxOk q env (if q then b.resumed else b) := by
  by_cases hc : q
  · obtain ⟨hlive, hclear⟩ := hq hc
    rw [if_pos hc]
    refine ⟨hq, fun _ hr => absurd (Or.inl hr) hclear, fun _ hw => absurd (Or.inr hw) hclear, ?_⟩
    intro v s hb
    refine h.letter v s ?_
    cases b with
    | receiving => cases hb
    | idle | received => exact hb
  · rw [if_neg hc]
    exact ⟨hq, h.recving, h.waiting, h.letter⟩

theorem imp (h : BoxOk p env b) (hq : q → p) : BoxOk q env b :=
  ⟨fun hc => h.running (hq hc), h.recving, h.waiting, h.letter⟩

theorem free (hst : env.envStatus = .free) (hp : ¬ p) : BoxOk p env .idle := by
  refine ⟨fun h => absurd h hp, fun h => absurd hst h, fun h => absurd hst h, ?_⟩
  rintro v s ⟨⟩

theorem clear (hf : ¬ env.flagged) (hp : p → env.envStatus ≠ .free)
    (hb : ∀ v s, b = .received v s →
      env.envStatus ≠ .free ∧ env.envIpcValue = v ∧ env.envIpcFrom = s) : BoxOk p env b :=
  ⟨fun hc => ⟨hp hc, hf⟩, fun _ hr => absurd (Or.inl hr) hf, fun _ hw => absurd (Or.inr hw) hf, hb⟩

theorem stay (h : BoxOk p env b) : BoxOk p env (boxAfter env.envStatus env.envStatus none b) := by
  unfold boxAfter
  split
  case isTrue hst =>
    have hst : env.envStatus = .free := hst.elim id id
    exact free hst fun hp => (h.running hp).1 hst
  case isFalse => exact h

end BoxOk

/-! ## One step -/

/-- The boxes after a call of `curenv`. -/
def callBoxes (s : Syscall) (k k' : Kernel) (g : Letters) : Letters := fun e =>
  boxAfter (k.envs e).envStatus (k'.envs e).envStatus (heardCall k k' e s) (g e)

/-- And after someone runs again. -/
def Letters.resumed (b : Letters) (k' : Kernel) : Letters := fun e =>
  if k'.curenv = some e then (b e).resumed else b e

theorem post_same {b : Letters} (henvs : k'.envs = k₁.envs) (hcur : k'.curenv = k₁.curenv)
    (hmid : ∀ x, BoxOk (k₁.curenv = some x) (k₁.envs x) (b x)) : PostInv k' (b.resumed k') := by
  intro x
  unfold Letters.resumed
  rw [henvs, hcur]
  exact (hmid x).resume (hmid x).running

theorem post_switched {b : Letters} (h : Switched k₁ e k')
    (hmid : ∀ x, BoxOk False (k₁.envs x) (b x)) : PostInv k' (b.resumed k') := by
  intro x
  have hx : BoxOk False (k'.envs x) (b x) := by
    rw [h.envs]
    exact (hmid x).congr rfl rfl rfl rfl rfl
  refine hx.resume fun hc => ?_
  obtain rfl : e = x := Option.some.inj (h.cur.symm.trans hc)
  have hrun : (k'.envs e).envStatus = .runnable := by
    rw [h.envs]
    exact h.runnable
  exact ⟨by simp [hrun], hx.runnable_clear hrun⟩

theorem switched_status (h : Switched k₁ e k') (x : EnvIx) :
    (k'.envs x).envStatus = (k₁.envs x).envStatus := by
  rw [h.envs]
  rfl

theorem post_one {s : Syscall} {f : Env → Env} {g : Letters} (hi : PostInv k g)
    (henvs : k'.envs = (k.setEnv e f).envs) (hcur : k'.curenv = k.curenv)
    (hnone : ∀ x, x ≠ e → heardCall k k' x s = none)
    (hself : BoxOk (k.curenv = some e) (f (k.envs e)) (callBoxes s k k' g e)) :
    PostInv k' ((callBoxes s k k' g).resumed k') := by
  refine post_same henvs hcur fun x => ?_
  rcases eq_or_ne x e with rfl | hx
  · simpa using hself
  · have hst : k'.envs x = k.envs x := by
      rw [henvs]
      simp [hx]
    unfold callBoxes
    rw [hnone x hx, hst]
    simpa [hx] using (hi x).stay

theorem post_quiet {s : Syscall} {g : Letters} (hi : PostInv k g) (hsame : EnvsOnly k k')
    (noSend : s.sends = false) : PostInv k' ((callBoxes s k k' g).resumed k') := by
  refine post_same hsame.envs hsame.cur fun x => ?_
  unfold callBoxes
  rw [hsame.envs]
  -- a receive that is refused: the caller has no letter, and no flag is set
  have hclear : ∀ b, k.curenv = some x → (∀ v s, b ≠ .received v s) →
      BoxOk (k.curenv = some x) (k.envs x) (boxAfter (k.envs x).envStatus (k.envs x).envStatus
        (some b) (g x)) := by
    intro b hc hb
    obtain ⟨hlive, hflag⟩ := (hi x).running hc
    unfold boxAfter
    rw [if_neg (by simp [hlive])]
    exact .clear hflag (fun _ => hlive) fun v s h => absurd h (hb v s)
  cases s with
  | ipcRecv dstva =>
    rw [heardCall_ipcRecv]
    by_cases hc : k.curenv = some x ∧ ¬ (dstva ≠ 0 ∧ isIllegalVa dstva = true)
    · rw [if_pos hc]
      exact hclear _ hc.1 (by simp)
    · rw [if_neg hc]
      exact (hi x).stay
  | recvReturnValue =>
    rw [heardCall_recvReturnValue]
    by_cases hc : k.curenv = some x
    · rw [if_pos hc]
      exact hclear _ hc (by simp)
    · rw [if_neg hc]
      exact (hi x).stay
  | ipcTrySend envid value srcva perm => cases noSend
  | _ => exact (hi x).stay

theorem post_refused {s : Syscall} {g : Letters} (hi : PostInv k g) (hsame : EnvsOnly k k')
    (hnone : ∀ x, heardCall k k' x s = none) : PostInv k' ((callBoxes s k k' g).resumed k') := by
  refine post_same hsame.envs hsame.cur fun x => ?_
  unfold callBoxes
  rw [hnone, hsame.envs]
  exact (hi x).stay

theorem post_waits {s : Syscall} {f : Env → Env} {g : Letters} (hi : PostInv k g)
    (hw : Waits k c f k') (hnone : ∀ x, x ≠ c → heardCall k k' x s = none)
    (hself : ∀ st, st ≠ .free → BoxOk False { f (k.envs c) with envStatus := .notRunnable }
      (boxAfter st .notRunnable (heardCall k k' c s) (g c))) :
    PostInv k' ((callBoxes s k k' g).resumed k') := by
  obtain ⟨k₀, e, hsame, hs⟩ := hw.switched
  have hst := switched_status hs
  refine post_switched hs fun x => ?_
  unfold callBoxes
  rw [hst, hsame.envs]
  rcases eq_or_ne x c with rfl | hx
  · simpa using hself _ ((hi x).running hw.cur).1
  · rw [hnone x hx]
    simpa [hx] using ((hi x).imp False.elim).stay

theorem post_gone {s : Syscall} {g : Letters} {k₀ : Kernel} (hi : PostInv k g)
    (hnone : ∀ x, heardCall k k' x s = none)
    (hsame : EnvsOnly { k.released e with curenv := none } k₀) (hs : Switched k₀ c k') :
    PostInv k' ((callBoxes s k k' g).resumed k') := by
  have hst := switched_status hs
  refine post_switched hs fun x => ?_
  unfold callBoxes
  rw [hst, hsame.envs, hnone]
  rcases eq_or_ne x e with rfl | hx
  · have hbox : ∀ env : Env, BoxOk False { env with envStatus := .free }
        (boxAfter (k.envs x).envStatus .free none (g x)) := by
      intro env
      rw [boxAfter_free]
      exact .free rfl id
    simpa [Kernel.released] using hbox (k.envs x)
  · simpa [hx, Kernel.released] using ((hi x).imp False.elim).stay

/-- When a call of `curenv` leaves no flag with an environment that does not wait: `sys_exofork` finds
a slot without flags, and `sys_set_env_status` wakes an environment without flags. -/
def CallPrompt (k : Kernel) : Syscall → Prop
  | .exofork => ∀ e, k.envFreeList.head? = some e → ¬ (k.envs e).flagged
  | .setEnvStatus envid status => status = 1 → ∀ e, target k envid true = some e →
      ¬ (k.envs e).flagged
  | _ => True

theorem toStatus_live {status : Word} {st : EnvStatus} (h : toStatus status = some st) :
    st = .runnable ∧ status = 1 ∨ st = .notRunnable := by
  unfold toStatus at h
  split at h
  case isTrue hs => exact Or.inl ⟨(Option.some.inj h).symm, hs⟩
  case isFalse =>
    split at h
    · exact Or.inr (Option.some.inj h).symm
    · cases h

theorem PostInv.target_live {g : Letters} (hi : PostInv k g) {envid : Word} {checkperm : Bool}
    (he : target k envid checkperm = some e) : (k.envs e).envStatus ≠ .free := by
  rcases target_cases he with ⟨_, hc⟩ | ⟨_, _, hlive, _⟩
  · exact ((hi e).running hc).1
  · exact hlive

theorem post_setStatus {envid status : Word} {st : EnvStatus} {g : Letters} (hi : PostInv k g)
    (hsafe : CallPrompt k (.setEnvStatus envid status)) (hst : toStatus status = some st)
    (he : target k envid true = some e)
    (hsame : EnvsOnly (k.setEnv e fun env => { env with envStatus := st }) k') :
    PostInv k' ((callBoxes (.setEnvStatus envid status) k k' g).resumed k') := by
  have hlive := hi.target_live he
  have hst' : (k'.envs e).envStatus = st := by
    rw [hsame.envs]
    simp
  have hbox : callBoxes (.setEnvStatus envid status) k k' g e = g e := by
    unfold callBoxes
    rw [hst', boxAfter_live hlive]
    · rfl
    · rcases toStatus_live hst with ⟨rfl, _⟩ | rfl <;> simp
  refine post_one hi hsame.envs hsame.cur (fun _ _ => rfl) ?_
  rw [hbox]
  rcases toStatus_live hst with ⟨rfl, h1⟩ | rfl
  · exact .clear (hsafe h1 e he) (by simp) fun v s hb => ⟨by simp, ((hi e).letter v s hb).2⟩
  · refine ⟨fun hc => ⟨by simp, ((hi e).running hc).2⟩, fun _ hr => ?_, fun _ hw => ?_,
      fun v s hb => ⟨by simp, ((hi e).letter v s hb).2⟩⟩
    · exact ⟨rfl, ((hi e).recving hlive hr).2⟩
    · exact ⟨rfl, ((hi e).waiting hlive hw).2⟩

theorem boxAfter_none (before after : EnvStatus) (b : LetterBox) :
    boxAfter before after none b = .idle ∨ boxAfter before after none b = b := by
  unfold boxAfter
  split
  · exact Or.inl rfl
  · exact Or.inr rfl

theorem post_fork {pgdir asid : Nat} {id : Word} {g : Letters} (hi : PostInv k g)
    (hclear : ¬ (k.envs e).flagged) (hsame : EnvsOnly (k.forked c e pgdir asid id) k') :
    PostInv k' ((callBoxes .exofork k k' g).resumed k') := by
  refine post_one hi (e := e) (f := fun env =>
    (env.alloc pgdir asid id (k.envs c).envId).fork (k.envs c) k.kstack) hsame.envs hsame.cur
    (fun _ _ => rfl) (.clear hclear (fun _ => by simp [Env.fork]) ?_)
  intro v s hb
  -- a letter in the box is one of an environment that lived in the slot before
  rcases boxAfter_none (k.envs e).envStatus (k'.envs e).envStatus (g e) with h | h
  · exact absurd (h.symm.trans hb) (by simp)
  · exact ⟨by simp [Env.fork], ((hi e).letter v s (h.symm.trans hb)).2⟩

theorem post_field {s : Syscall} {f : Env → Env} {g : Letters} (hi : PostInv k g)
    (henvs : k'.envs = (k.setEnv e f).envs) (hcur : k'.curenv = k.curenv)
    (hnone : ∀ x, heardCall k k' x s = none)
    (hst : (f (k.envs e)).envStatus = (k.envs e).envStatus)
    (hr : (f (k.envs e)).envIpcRecving = (k.envs e).envIpcRecving)
    (hw : (f (k.envs e)).waitingReturnValue = (k.envs e).waitingReturnValue)
    (hv : (f (k.envs e)).envIpcValue = (k.envs e).envIpcValue)
    (hs : (f (k.envs e)).envIpcFrom = (k.envs e).envIpcFrom) :
    PostInv k' ((callBoxes s k k' g).resumed k') := by
  refine post_one hi henvs hcur (fun x _ => hnone x) ?_
  have hst' : (k'.envs e).envStatus = (k.envs e).envStatus := by
    rw [henvs]
    simpa using hst
  unfold callBoxes
  rw [hnone, hst']
  exact (hi e).stay.congr hst hr hw hv hs

theorem post_released {s : Syscall} {g : Letters} (hi : PostInv k g)
    (hnone : ∀ x, heardCall k k' x s = none) (hother : k.curenv ≠ some e)
    (hsame : EnvsOnly (k.released e) k') : PostInv k' ((callBoxes s k k' g).resumed k') := by
  refine post_one hi (e := e) (f := fun env => { env with envStatus := .free }) hsame.envs hsame.cur
    (fun x _ => hnone x) ?_
  have hst : (k'.envs e).envStatus = .free := by
    rw [hsame.envs]
    simp [Kernel.released]
  unfold callBoxes
  rw [hst, boxAfter_free]
  exact .free rfl hother

/-- A send that delivers to an environment with the flag `env_ipc_recving`. -/
theorem post_send {envid value srcva perm : Word} {ok : Bool} {g : Letters} (hi : PostInv k g)
    (hd : Delivered k envid srcva (fun env => env.envIpcRecving == 1) (Env.sent value perm) ok c e
      k') :
    PostInv k' ((callBoxes (.ipcTrySend envid value srcva perm) k k' g).resumed k') := by
  have hlive := hi.target_live hd.target
  have hrecv : (k.envs e).envIpcRecving = 1 := by simpa using hd.waiting
  obtain ⟨_, hbox, hwait⟩ := (hi e).recving hlive hrecv
  have hnot : k.curenv ≠ some e := fun hc => ((hi e).running hc).2 (Or.inl hrecv)
  have hst : (k'.envs e).envStatus = .runnable := by
    rw [hd.state.envs]
    simp
  refine post_one hi hd.state.envs hd.state.cur (fun x hx => ?_) ?_
  · rw [heardCall_ipcTrySend, if_neg]
    rintro ⟨hx', _⟩
    exact hx (Option.some.inj (hx'.symm.trans hd.target))
  · refine ⟨fun hc => absurd hc hnot, fun _ hr => ?_, fun _ hw => absurd hw hwait, ?_⟩
    · exact absurd hr (by simp [Env.sent])
    · intro v s hb
      unfold callBoxes at hb
      rw [hst, boxAfter_live hlive (by simp), heardCall_ipcTrySend, hd.cur, hbox] at hb
      split at hb
      · simp only [Option.map_some, Option.getD_some, LetterBox.received.injEq] at hb
        exact ⟨by simp, hb.1, hb.2⟩
      · cases hb

theorem post_sendReturn {envid value srcva perm : Word} {ok : Bool} {g : Letters}
    (hi : PostInv k g)
    (hd : Delivered k envid srcva (fun env => env.waitingReturnValue == 1)
      (Env.sentReturn value perm) ok c e k') :
    PostInv k' ((callBoxes (.sendReturnValue envid value srcva perm) k k' g).resumed k') := by
  have hlive := hi.target_live hd.target
  have hwait : (k.envs e).waitingReturnValue = 1 := by simpa using hd.waiting
  obtain ⟨_, hbox⟩ := (hi e).waiting hlive hwait
  refine post_one hi hd.state.envs hd.state.cur (fun x _ => rfl) (.clear ?_ (fun _ => by simp) ?_)
  · rintro (hr | hw)
    · exact absurd hr (by simp [Env.sentReturn])
    · exact absurd hw (by simp [Env.sentReturn])
  · intro v s hb
    rcases boxAfter_none (k.envs e).envStatus (k'.envs e).envStatus (g e) with h | h
    · exact absurd (h.symm.trans hb) (by simp)
    · exact absurd (hbox.symm.trans (h.symm.trans hb)) (by simp)

theorem post_recv {dstva : Word} {g : Letters} (hi : PostInv k g)
    (hlegal : ¬ (dstva ≠ 0 ∧ isIllegalVa dstva = true))
    (hw : Waits k c (fun env => { env with envIpcRecving := 1, envIpcDstva := dstva }) k') :
    PostInv k' ((callBoxes (.ipcRecv dstva) k k' g).resumed k') := by
  have hflag := ((hi c).running hw.cur).2
  refine post_waits hi hw (fun x hx => ?_) fun st hst => ?_
  · rw [heardCall_ipcRecv, if_neg]
    rintro ⟨hx', _⟩
    exact hx (Option.some.inj (hx'.symm.trans hw.cur))
  · rw [boxAfter_live hst (by simp), heardCall_ipcRecv, if_pos ⟨hw.cur, hlegal⟩]
    refine ⟨False.elim, fun _ _ => ⟨rfl, rfl, fun h => hflag (Or.inr h)⟩,
      fun _ h => absurd (Or.inr h) hflag, ?_⟩
    rintro v s ⟨⟩

theorem post_recvReturn {g : Letters} (hi : PostInv k g)
    (hw : Waits k c (fun env => { env with waitingReturnValue := 1 }) k') :
    PostInv k' ((callBoxes .recvReturnValue k k' g).resumed k') := by
  have hflag := ((hi c).running hw.cur).2
  refine post_waits hi hw (fun x hx => ?_) fun st hst => ?_
  · rw [heardCall_recvReturnValue, if_neg]
    exact fun hx' => hx (Option.some.inj (hx'.symm.trans hw.cur))
  · rw [boxAfter_live hst (by simp), heardCall_recvReturnValue, if_pos hw.cur]
    refine ⟨False.elim, fun _ h => absurd (Or.inl h) hflag, fun _ _ => ⟨rfl, rfl⟩, ?_⟩
    rintro v s ⟨⟩

theorem post_effect {inp : Inputs} {s : Syscall} {g : Letters} (hi : PostInv k g)
    (hsafe : CallPrompt k s) (he : Effect k inp s k') :
    PostInv k' ((callBoxes s k k' g).resumed k') := by
  cases he with
  | quiet noSend same => exact post_quiet hi same noSend
  | refused same v0 =>
    refine post_refused hi same fun x => ?_
    rw [heardCall_ipcTrySend, if_neg fun h => v0 h.2]
  | refusedReturn same _ _ => exact post_refused hi same fun _ => rfl
  | yield same switched =>
    refine post_switched switched fun x => ?_
    unfold callBoxes
    rw [switched_status switched, same.envs]
    exact ((hi x).imp False.elim).stay
  | setTlbModEntry target state =>
    exact post_field hi state.envs state.cur (fun _ => rfl) rfl rfl rfl rfl rfl
  | fork cur head slot value state => exact post_fork hi (hsafe _ head) state
  | forkFails head state =>
    exact post_field hi state.envs state.cur (fun _ => rfl) rfl rfl rfl rfl rfl
  | setStatus known target state => exact post_setStatus hi hsafe known target state
  | setFrame legal target other state =>
    exact post_field hi state.envs state.cur (fun _ => rfl) rfl rfl rfl rfl rfl
  | destroy target other state => exact post_released hi (fun _ => rfl) other state
  | destroySelf target cur state switched => exact post_gone hi (fun _ => rfl) state switched
  | kill job id runnable other state => exact post_released hi (fun _ => rfl) other state
  | killSelf job id runnable cur state switched => exact post_gone hi (fun _ => rfl) state switched
  | recv legal waits => exact post_recv hi legal waits
  | recvReturn waits => exact post_recvReturn hi waits
  | send sent => exact post_send hi sent
  | sendReturn sent => exact post_sendReturn hi sent

/-! ## Runs -/

def Prompt (k : Kernel) (op : Op) : Prop :=
  ∀ f inp s, op = .syscall f inp → Syscall.ofFrame f inp = some s → CallPrompt k s

instance (env : Env) : Decidable env.flagged := inferInstanceAs (Decidable (_ ∨ _))

instance (k : Kernel) (s : Syscall) : Decidable (CallPrompt k s) :=
  match s with
  | .exofork =>
    decidable_of_iff (∀ e ∈ k.envFreeList.head?, ¬ (k.envs e).flagged) Iff.rfl
  | .setEnvStatus envid status =>
    decidable_of_iff (status = 1 → ∀ e ∈ target k envid true, ¬ (k.envs e).flagged) Iff.rfl
  | .putchar _ | .printCons .. | .getenvid | .yield | .envDestroy _ | .setTlbModEntry ..
  | .memAlloc .. | .memMap .. | .memUnmap .. | .setTrapframe .. | .panic _ | .ipcTrySend ..
  | .ipcRecv _ | .cgetc | .writeDev .. | .readDev .. | .createJob .. | .printJobs
  | .setJobDone _ | .fgJob _ | .killJob _ | .sendReturnValue .. | .recvReturnValue =>
    isTrue trivial

instance (k : Kernel) (op : Op) : Decidable (Prompt k op) :=
  match op with
  | .syscall f inp =>
    decidable_of_iff (∀ s ∈ Syscall.ofFrame f inp, CallPrompt k s) (by
      constructor
      · rintro h _ _ s ⟨⟩ hs
        exact h s hs
      · exact fun h s hs => h f inp s rfl hs)
  | .start | .timer _ | .tlbRefill .. | .tlbMod .. | .store .. | .tlbEvict _ =>
    isTrue (by
      rintro _ _ _ ⟨⟩)

theorem CallPrompt.entered {s : Syscall} (h : CallPrompt k s) (f : Trapframe) :
    CallPrompt (k.entered f) s := by
  cases s with
  | exofork => exact h
  | setEnvStatus envid status =>
    intro hst e he
    rw [target_entered] at he
    exact h hst e he
  | _ => trivial

theorem heardCall_entered (f : Trapframe) (s : Syscall) :
    heardCall (k.entered f) k' e s = heardCall k k' e s := by
  cases s with
  | ipcTrySend envid value srcva perm =>
    rw [heardCall_ipcTrySend, heardCall_ipcTrySend, target_entered]
    rfl
  | _ => rfl

theorem observe_call {f : Trapframe} {inp : Inputs} {s : Syscall} {g : Letters}
    (hs : Syscall.ofFrame f inp = some s) :
    observe (.syscall f inp) k k' g = (callBoxes s (k.entered f) k' g).resumed k' := by
  funext x
  have hheard : heard (.syscall f inp) k k' x = heardCall (k.entered f) k' x s := by
    simp only [heard, hs, Option.bind_some, heardCall_entered]
  unfold observe Letters.resumed callBoxes
  rw [hheard]
  rfl

theorem post_silent {op : Op} {g : Letters} (hi : PostInv k g) (hnone : ∀ x, heard op k k' x = none)
    (h : EnvsOnly k k' ∨ ∃ k₀ e, EnvsOnly k k₀ ∧ Switched k₀ e k') :
    PostInv k' (observe op k k' g) := by
  have hobs : observe op k k' g = Letters.resumed
      (fun x => boxAfter (k.envs x).envStatus (k'.envs x).envStatus none (g x)) k' := by
    funext x
    unfold observe Letters.resumed
    rw [hnone]
  rw [hobs]
  rcases h with hsame | ⟨k₀, e, hsame, hs⟩
  · refine post_same hsame.envs hsame.cur fun x => ?_
    rw [hsame.envs]
    exact (hi x).stay
  · refine post_switched hs fun x => ?_
    rw [switched_status hs, hsame.envs]
    exact ((hi x).imp False.elim).stay

theorem post_next {op : Op} {g : Letters} (hi : PostInv k g) (hsafe : Prompt k op)
    (h : next op k = some k') : PostInv k' (observe op k k' g) := by
  by_cases hop : ∃ f inp, op = .syscall f inp
  · obtain ⟨f, inp, rfl⟩ := hop
    cases hs : Syscall.ofFrame f inp with
    | none =>
      refine post_silent hi (fun x => ?_) (Or.inl ?_)
      · simp [heard, hs]
      · rw [unknown_next hs h]
        exact ⟨rfl, rfl, rfl⟩
    | some s =>
      rw [observe_call hs]
      have hcall := (hsafe f inp s rfl hs).entered f
      exact post_effect hi hcall (effect_of_ends (doSyscall_ends hs h))
  · have hop' : ∀ f inp, op ≠ .syscall f inp := fun f inp h => hop ⟨f, inp, h⟩
    refine post_silent hi (fun x => ?_) (other_next hop' h)
    cases op with
    | syscall f inp => exact absurd rfl (hop' f inp)
    | _ => rfl

/-- Nobody runs, and nobody has a flag. -/
structure Unflagged (k : Kernel) : Prop where
  cur : k.curenv = none
  clear : ∀ e, ¬ (k.envs e).flagged

theorem unflagged_envCreate (h : Unflagged k) (image : Image) (priority : Word) :
    wp (envCreate image priority) (fun _ => Unflagged) (fun _ _ => True) k := by
  refine wp_mono (envCreate_spec k image priority) ?_ (fun _ _ h => h)
  rintro e k' ⟨_, pgdir, asid, id, _, hsame⟩
  refine ⟨hsame.cur.trans h.cur, fun x => ?_⟩
  rw [hsame.envs]
  rcases eq_or_ne x e with rfl | hx
  · rw [Kernel.setEnv_envs, Function.update_self]
    exact h.clear x
  · simpa [hx] using h.clear x

theorem unflagged_boot {mc : Machine} {programs : List (Image × Word)}
    (hb : boot mc programs = some k) : Unflagged k := by
  refine boot_rule ?_ (fun k image priority hk => unflagged_envCreate hk image priority) hb
  refine wp_mono ((sameEnvs_envInit mc).always _) (fun _ k₁ h₁ => ?_) (fun _ _ _ => trivial)
  refine ⟨h₁.cur, fun e => ?_⟩
  rw [h₁.envs]
  rintro (h | h)
  · simp [Machine.initial, Env.zero] at h
  · simp [Machine.initial, Env.zero] at h

theorem post_inv {g : Letters} (h : post.Run (fun p op => Prompt p.1 op) (k, g)) : PostInv k g := by
  refine h.invariant (I := fun p => PostInv p.1 p.2) ?_ ?_
  · rintro ⟨k, g⟩ ⟨⟨mc, programs, hb⟩, rfl⟩ e
    have hk := unflagged_boot hb
    exact .clear (hk.clear e) (fun hc => absurd (hk.cur.symm.trans hc) (by simp)) (by simp)
  · rintro ⟨k, g⟩ op ⟨k', g'⟩ hi hsafe hs
    have hw := System.watch_next hs
    have hg : g' = observe op k k' g := hw.2
    subst hg
    exact post_next hi hsafe hw.1

/-- A letter comes with a `sys_ipc_try_send` that has returned 0. -/
theorem heard_letter {op : Op} {v s : Word} (h : heard op k k' e = some (.received v s)) :
    ∃ f inp envid srcva perm, op = .syscall f inp ∧
      Syscall.ofFrame f inp = some (.ipcTrySend envid v srcva perm) ∧
      target k envid false = some e ∧ k'.kstack.regs 2 = 0 ∧
      ∃ c, k.curenv = some c ∧ (k.envs c).envId = s := by
  cases op with
  | syscall f inp =>
    obtain ⟨call, hcall, hc⟩ := Option.bind_eq_some_iff.mp h
    cases call with
    | ipcTrySend envid value srcva perm =>
      rw [heardCall_ipcTrySend] at hc
      split at hc
      case isTrue ht =>
        obtain ⟨c, hcur, hb⟩ := Option.map_eq_some_iff.mp hc
        obtain ⟨rfl, hs⟩ := LetterBox.received.inj hb
        exact ⟨f, inp, envid, srcva, perm, rfl, hcall, ht.1, ht.2, c, hcur, hs⟩
      case isFalse => cases hc
    | ipcRecv dstva =>
      rw [heardCall_ipcRecv] at hc
      split at hc
      · cases hc
      · cases hc
    | recvReturnValue =>
      rw [heardCall_recvReturnValue] at hc
      split at hc
      · cases hc
      · cases hc
    | _ => cases hc
  | _ => cases h

/-- In a run that leaves no flag behind, whoever has a letter finds its value and its sender in its
own fields; and a `sys_ipc_try_send` that returns 0 finds an environment that waits in its own
`sys_ipc_recv`, without a letter so far, and gives it this one. -/
theorem ipc_exactly_once {g : Letters} (h : post.Run (fun p op => Prompt p.1 op) (k, g)) :
    (∀ e v s, g e = .received v s →
      (k.envs e).envStatus ≠ .free ∧ (k.envs e).envIpcValue = v ∧ (k.envs e).envIpcFrom = s) ∧
    ∀ op k', Prompt k op → next op k = some k' → ∀ e v s, heard op k k' e = some (.received v s) →
      (k.envs e).envStatus = .notRunnable ∧ g e = .receiving ∧
      observe op k k' g e = .received v s ∧
      (k'.envs e).envIpcValue = v ∧ (k'.envs e).envIpcFrom = s := by
  have hi := post_inv h
  refine ⟨fun e => (hi e).letter, ?_⟩
  intro op k' hsafe hnext e v s hheard
  obtain ⟨f, inp, envid, srcva, perm, rfl, hcall, htarget, hv0, _⟩ := heard_letter hheard
  have heff := effect_of_ends (doSyscall_ends hcall hnext)
  cases heff with
  | quiet noSend same => cases noSend
  | refused same v0 => exact absurd hv0 v0
  | send sent =>
    rename_i ok c e'
    obtain rfl : e = e' := Option.some.inj (htarget.symm.trans sent.target)
    have hlive := hi.target_live htarget
    have hrecv : (k.envs e).envIpcRecving = 1 := eq_of_beq sent.waiting
    obtain ⟨hstatus, hbox, _⟩ := (hi e).recving hlive hrecv
    have hnot : k'.curenv ≠ some e := by
      rw [sent.state.cur]
      exact fun hc => ((hi e).running hc).2 (Or.inl hrecv)
    have hobs : observe (.syscall f inp) k k' g e = .received v s := by
      unfold observe
      rw [hheard, boxAfter_live hlive, if_neg hnot]
      · rfl
      · rw [sent.state.envs]
        simp
    have hafter := (post_next hi hsafe hnext e).letter v s hobs
    exact ⟨hstatus, hbox, hobs, hafter.2⟩

/-! ## Runs of the small machine -/

/-- A child waits, its parent sends to it. -/
def oneLetter : List Op :=
  [.start,
    callOp 9 0 0 0,       -- `sys_exofork`: the child is 4097
    callOp 10 4097 1 0,   -- `sys_set_env_status(child, ENV_RUNNABLE)`
    callOp 3 0 0 0,       -- `sys_yield`
    callOp 14 0 0 0,      -- the child: `sys_ipc_recv(0)`
    callOp 13 4097 42 0]  -- the parent: `sys_ipc_try_send(child, 42, 0, 0)`

theorem ipc_exactly_once_letter : ∃ (k : Kernel) (g : Letters), g 1 = .received 42 2048 ∧
    ((k.envs 1).envStatus ≠ .free ∧ (k.envs 1).envIpcValue = 42 ∧ (k.envs 1).envIpcFrom = 2048) := by
  have hrun : ((boot smallMachine [(bareLoop, 1)]).any fun k =>
      (post.execMeeting (fun p op => Prompt p.1 op) oneLetter (k, fun _ => .idle)).any fun p =>
        p.2 1 == .received 42 2048) = true := by decide +kernel
  obtain ⟨k₀, hk₀, hexec⟩ := (Option.any_eq_true _ _).mp hrun
  obtain ⟨⟨k, g⟩, hk, hbox⟩ := (Option.any_eq_true _ _).mp hexec
  have h₀ : post.Run (fun p op => Prompt p.1 op) (k₀, fun _ => .idle) :=
    .init ⟨⟨_, _, hk₀⟩, rfl⟩
  have h := System.Run.execMeeting h₀ hk
  exact ⟨k, g, eq_of_beq hbox, (ipc_exactly_once h).1 1 42 2048 (eq_of_beq hbox)⟩

/-- The boxes of the small machine after `ops`. -/
def smallPost (ops : List Op) : Option (Kernel × Letters) :=
  (boot smallMachine [(bareLoop, 1)]).bind fun k => post.exec ops (k, fun _ => .idle)

theorem smallPost_reachable {ops : List Op} {p : Kernel × Letters} (h : smallPost ops = some p) :
    post.Reachable p := by
  obtain ⟨k, hk, hrun⟩ := Option.bind_eq_some_iff.mp h
  exact System.Run.exec (.init ⟨⟨_, _, hk⟩, rfl⟩) hrun

/-- A child is destroyed while it waits, and its slot goes to another child, which never runs. -/
def staleFlag : List Op :=
  [.start,
    callOp 9 0 0 0,       -- `sys_exofork`: the child is 4097
    callOp 10 4097 1 0,   -- `sys_set_env_status(child, ENV_RUNNABLE)`
    callOp 3 0 0 0,       -- `sys_yield`
    callOp 14 0 0 0,      -- the child: `sys_ipc_recv(0)`
    callOp 4 4097 0 0,    -- the parent: `sys_env_destroy(child)`
    callOp 9 0 0 0]       -- `sys_exofork`: the child is 6145

theorem ipc_delivered_to_new_env : ∃ k g k', post.Reachable (k, g) ∧
    next (callOp 13 6145 42 0) k = some k' ∧
    heard (callOp 13 6145 42 0) k k' 1 = some (.received 42 2048) ∧ g 1 = .idle := by
  have hrun : ((smallPost staleFlag).any fun p => (next (callOp 13 6145 42 0) p.1).any fun k' =>
      heard (callOp 13 6145 42 0) p.1 k' 1 == some (.received 42 2048) && p.2 1 == .idle) = true := by
    decide +kernel
  obtain ⟨⟨k, g⟩, hk, hnext⟩ := (Option.any_eq_true _ _).mp hrun
  obtain ⟨k', hk', hbad⟩ := (Option.any_eq_true _ _).mp hnext
  obtain ⟨hheard, hbox⟩ := Bool.and_eq_true_iff.mp hbad
  exact ⟨k, g, k', smallPost_reachable hk, hk', eq_of_beq hheard, eq_of_beq hbox⟩

end Mos
