import SocketManager.Manager.Runtime

/-! The `SocketManager` object (lib.rs) in the hands of any number of threads. Each call is cut where
    it touches what the threads share: the channel of commands, `has_joined`, `join_handle` and the
    background thread.

        listen, connect, cancel    send
        abort(false)               send
        abort(true)                send ── exchange ── take ── wait for the thread
        join                               exchange ── take ── wait for the thread
                                              └── lost: return Ok at once

    The exchange is won once, by the first call that comes to it; that call alone takes the handle and
    waits. -/

namespace SocketManager.Manager
variable (A : Type)

/-! ### The model -/

inductive ApiCall where
  | listenOnAddr (addr : A)
  | connectToAddr (addr : A) (delay : Nat)
  | cancelListenOnAddr (addr : A)
  | abort (wait : Bool)
  | join
  deriving DecidableEq

inductive CallPc where
  /-- About to send its command. -/
  | send
  /-- About to exchange `has_joined`. -/
  | exchange
  /-- Won the exchange, about to take `join_handle`. -/
  | take
  /-- In `JoinHandle::join`. -/
  | waiting
  | returned (res : Except String Unit)
  deriving DecidableEq

/-- A call that was begun. -/
structure InCall where
  call : ApiCall A
  pc : CallPc
  /-- It won the exchange. -/
  won : Bool
  deriving DecidableEq

/-- The object, the calls made on it and the background. -/
structure Shared where
  runtime : Runtime A
  hasJoined : Bool
  /-- `join_handle` is there. -/
  joinHandle : Bool
  calls : List (InCall A)
  /-- A `take().unwrap()` met `None`. -/
  unwrapFailed : Bool

inductive SharedAct where
  /-- A thread begins a call. -/
  | call (call : ApiCall A)
  /-- The `i`-th call takes its next step. -/
  | next (i : Nat)
  /-- Something happens in the background. -/
  | background (a : RuntimeAct A)
  deriving DecidableEq

variable {A}

namespace ApiCall

def command : ApiCall A → Option (Command A)
  | .listenOnAddr addr => some (.listen addr)
  | .connectToAddr addr delay => some (.connect addr delay)
  | .cancelListenOnAddr addr => some (.cancelListen addr)
  | .abort _ => some .abort
  | .join => none

/-- Where the call goes from its send; `abort` ignores whether it succeeded. -/
def sent (ok : Bool) : ApiCall A → CallPc
  | .abort wait => if wait then .exchange else .returned (.ok ())
  | _ => .returned (if ok then .ok () else .error "socket manager has stopped")

def begin : ApiCall A → InCall A
  | .join => ⟨.join, .exchange, false⟩
  | call => ⟨call, .send, false⟩

end ApiCall

namespace Shared

/-- `cmd_send.send(..)` -/
def send (s : Shared A) (cmd : Command A) : Shared A :=
  if s.runtime.cmdRecv then
    { s with runtime := { s.runtime with queue := s.runtime.queue ++ [cmd] } }
  else s

def setCall (s : Shared A) (i : Nat) (c : InCall A) : Shared A := { s with calls := s.calls.set i c }

/-- What `JoinHandle::join` gives back. -/
def joined (s : Shared A) : Except String Unit :=
  if s.runtime.panicked then .error "socket manager join returned error: Any { .. }" else .ok ()

/-- The next step of the `i`-th call. -/
def next (s : Shared A) (i : Nat) (c : InCall A) : Option (Shared A) :=
  match c.pc with
  | .send =>
    c.call.command.map fun cmd =>
      (s.send cmd).setCall i { c with pc := c.call.sent s.runtime.cmdRecv }
  | .exchange =>
    if s.hasJoined then some (s.setCall i { c with pc := .returned (.ok ()) })
    else some ({ s with hasJoined := true }.setCall i { c with pc := .take, won := true })
  | .take =>
    if s.joinHandle then some ({ s with joinHandle := false }.setCall i { c with pc := .waiting })
    else some { s with unwrapFailed := true }
  | .waiting =>
    if s.runtime.phase = .stopped then some (s.setCall i { c with pc := .returned s.joined })
    else none
  | .returned _ => none

def step [DecidableEq A] (fl : Flavour) (s : Shared A) : SharedAct A → Option (Shared A)
  | .call call => some { s with calls := s.calls ++ [call.begin] }
  | .next i => s.calls[i]?.bind (s.next i)
  | .background a => (s.runtime.step fl a).map fun runtime => { s with runtime }

def init : Shared A := ⟨Runtime.init, false, true, [], false⟩

/-- A manager with `nThreads` threads and its users. -/
def machine (A : Type) [DecidableEq A] (nThreads : Nat) : Machine (Shared A) (SharedAct A) :=
  ⟨init, step (startRuntime nThreads)⟩

/-! ### The steps of a call -/

variable {fl : Flavour} {s s' : Shared A} {a : SharedAct A} {i : Nat} {c : InCall A}

inductive Next (s : Shared A) (i : Nat) (c : InCall A) : Shared A → Prop where
  | send {cmd : Command A} (hp : c.pc = .send) (hcmd : c.call.command = some cmd) :
      Next s i c ((s.send cmd).setCall i { c with pc := c.call.sent s.runtime.cmdRecv })
  | lost (hp : c.pc = .exchange) (hj : s.hasJoined = true) :
      Next s i c (s.setCall i { c with pc := .returned (.ok ()) })
  | won (hp : c.pc = .exchange) (hj : s.hasJoined = false) :
      Next s i c ({ s with hasJoined := true }.setCall i { c with pc := .take, won := true })
  | take (hp : c.pc = .take) (hh : s.joinHandle = true) :
      Next s i c ({ s with joinHandle := false }.setCall i { c with pc := .waiting })
  | unwrapFails (hp : c.pc = .take) (hh : s.joinHandle = false) :
      Next s i c { s with unwrapFailed := true }
  | joined (hp : c.pc = .waiting) (hs : s.runtime.phase = .stopped) :
      Next s i c (s.setCall i { c with pc := .returned s.joined })

theorem next_cases (h : s.next i c = some s') : Next s i c s' := by
  unfold next at h
  split at h
  · rename_i hp
    obtain ⟨cmd, hcmd, rfl⟩ := Option.map_eq_some_iff.mp h
    exact .send hp hcmd
  · rename_i hp
    split at h <;> (rename_i hj; obtain rfl := Option.some.inj h)
    · exact .lost hp hj
    · exact .won hp (by simpa using hj)
  · rename_i hp
    split at h <;> (rename_i hh; obtain rfl := Option.some.inj h)
    · exact .take hp hh
    · exact .unwrapFails hp (by simpa using hh)
  · rename_i hp
    split at h
    · rename_i hs
      obtain rfl := Option.some.inj h; exact .joined hp hs
    · cases h
  · cases h

/-- A step of the whole: a call begins, a call goes on, or something happens in the background. -/
inductive Step [DecidableEq A] (fl : Flavour) (s : Shared A) : SharedAct A → Shared A → Prop where
  | call (call : ApiCall A) : Step fl s (.call call) { s with calls := s.calls ++ [call.begin] }
  | next {i : Nat} {c : InCall A} {s' : Shared A} (hc : s.calls[i]? = some c) (hn : Next s i c s') :
      Step fl s (.next i) s'
  | background {a : RuntimeAct A} {runtime : Runtime A} (hs : s.runtime.step fl a = some runtime) :
      Step fl s (.background a) { s with runtime }

theorem step_cases [DecidableEq A] (h : s.step fl a = some s') : Step fl s a s' := by
  cases a with
  | call call => obtain rfl := Option.some.inj h; exact .call call
  | next i =>
    obtain ⟨c, hc, hn⟩ := Option.bind_eq_some_iff.mp h
    exact .next hc (next_cases hn)
  | background a =>
    obtain ⟨runtime, hs, rfl⟩ := Option.map_eq_some_iff.mp h
    exact .background hs

theorem getElem?_setCall {d : InCall A} (hc : s.calls[i]? = some c) (j : Nat) :
    (s.setCall i d).calls[j]? = if j = i then some d else s.calls[j]? := by
  have hlt : i < s.calls.length := (List.getElem?_eq_some_iff.mp hc).1
  rcases eq_or_ne j i with rfl | hj
  · simp [setCall, hlt]
  · simp [setCall, hj, List.getElem?_set_ne hj.symm]

theorem send_frame (cmd : Command A) :
    (s.send cmd).calls = s.calls ∧ (s.send cmd).hasJoined = s.hasJoined ∧
      (s.send cmd).joinHandle = s.joinHandle ∧ (s.send cmd).unwrapFailed = s.unwrapFailed ∧
      (s.send cmd).runtime.phase = s.runtime.phase := by
  unfold send
  split <;> exact ⟨rfl, rfl, rfl, rfl, rfl⟩

/-! ### One call waits -/

/-- What is known of a call. -/
structure CallOk (s : Shared A) (c : InCall A) : Prop where
  won : c.won = true → s.hasJoined = true
  take : c.pc = .take → c.won = true ∧ s.joinHandle = true
  waiting : c.pc = .waiting → c.won = true
  returned : ∀ res, c.won = true → c.pc = .returned res → s.runtime.phase = .stopped
  waits : c.won = true → c.pc ≠ .send ∧ c.pc ≠ .exchange

structure JoinInv (s : Shared A) : Prop where
  calls : ∀ (i : Nat) (c : InCall A), s.calls[i]? = some c → CallOk s c
  once : ∀ (i j : Nat) (c d : InCall A), s.calls[i]? = some c → s.calls[j]? = some d →
    c.won = true → d.won = true → i = j
  handle : s.hasJoined = false → s.joinHandle = true
  unwrap : s.unwrapFailed = false

theorem CallOk.mono (h : CallOk s c) (hj : s.hasJoined = true → s'.hasJoined = true)
    (hh : c.pc = .take → s.joinHandle = true → s'.joinHandle = true)
    (hp : s.runtime.phase = .stopped → s'.runtime.phase = .stopped) : CallOk s' c where
  won hw := hj (h.won hw)
  take ht := ⟨(h.take ht).1, hh ht (h.take ht).2⟩
  waiting := h.waiting
  returned res hw hr := hp (h.returned res hw hr)
  waits := h.waits

/-- Rule for a step of call `i`. -/
theorem JoinInv.set (h : JoinInv s) {d : InCall A} (hc : s.calls[i]? = some c)
    (hcalls : ∀ j, s'.calls[j]? = if j = i then some d else s.calls[j]?) (hd : CallOk s' d)
    (hold : ∀ (j : Nat) (e : InCall A), j ≠ i → s.calls[j]? = some e → CallOk s' e)
    (hwon : d.won = true → c.won = true ∨
      ∀ (j : Nat) (e : InCall A), s.calls[j]? = some e → e.won = false)
    (hhandle : s'.hasJoined = false → s'.joinHandle = true)
    (hunwrap : s'.unwrapFailed = s.unwrapFailed) : JoinInv s' := by
  -- who has won in the new state had won before, or is the only one
  have key : ∀ (j : Nat) (e : InCall A), s'.calls[j]? = some e → e.won = true → j ≠ i →
      d.won = true → False := by
    intro j e he hw hj hd
    rw [hcalls, if_neg hj] at he
    rcases hwon hd with hcw | hnone
    · exact hj (h.once j i e c he hc hw hcw)
    · rw [hnone j e he] at hw; cases hw
  refine ⟨fun j e he => ?_, fun j k e f he hf hew hfw => ?_, hhandle, hunwrap.trans h.unwrap⟩
  · rw [hcalls] at he
    split at he
    · cases he; exact hd
    · rename_i hj
      exact hold j e hj he
  · rcases eq_or_ne j i with rfl | hj
    · rcases eq_or_ne k j with rfl | hk
      · rfl
      · rw [hcalls, if_pos rfl] at he
        cases he
        exact (key k f hf hfw hk hew).elim
    · rcases eq_or_ne k i with rfl | hk
      · rw [hcalls, if_pos rfl] at hf
        cases hf
        exact (key j e he hew hj hfw).elim
      · rw [hcalls, if_neg hj] at he
        rw [hcalls, if_neg hk] at hf
        exact h.once j k e f he hf hew hfw

/-- A call that has not won takes no part in it. -/
theorem CallOk.of_not_won (hw : c.won = false) (ht : c.pc ≠ .take) (hp : c.pc ≠ .waiting) :
    CallOk s c := by
  have hne : ¬ c.won = true := by simp [hw]
  exact ⟨fun h => absurd h hne, fun h => absurd h ht, fun h => absurd h hp,
    fun _ h => absurd h hne, fun h => absurd h hne⟩

theorem sent_cases (call : ApiCall A) (ok : Bool) :
    call.sent ok = .exchange ∨ ∃ res, call.sent ok = .returned res := by
  cases call with
  | abort wait =>
    cases wait with
    | true => exact .inl rfl
    | false => exact .inr ⟨_, rfl⟩
  | _ => exact .inr ⟨_, rfl⟩

theorem CallOk.not_won (h : CallOk s c) (hp : c.pc = .send ∨ c.pc = .exchange) : c.won = false := by
  by_contra hw
  have := h.waits (by simpa using hw)
  exact hp.elim this.1 this.2

theorem JoinInv.next (h : JoinInv s) (hc : s.calls[i]? = some c) (hn : Next s i c s') :
    JoinInv s' := by
  have hok := h.calls i c hc
  cases hn with
  | @send cmd hp hcmd =>
    obtain ⟨hcs, hj, hh, hu, hph⟩ := send_frame (s := s) cmd
    have hw := hok.not_won (.inl hp)
    refine h.set (d := { c with pc := c.call.sent s.runtime.cmdRecv }) hc (fun j => ?_) ?_
      (fun j e _ he => ?_) (fun hd => .inl hd) ?_ hu
    · rw [getElem?_setCall (hcs ▸ hc), hcs]
    · rcases sent_cases c.call s.runtime.cmdRecv with hs | ⟨res, hs⟩ <;>
        exact .of_not_won hw (by rw [hs]; nofun) (by rw [hs]; nofun)
    · exact (h.calls j e he).mono (fun hjoin => hj.trans hjoin) (fun _ hhand => hh.trans hhand)
        fun hstop => hph.trans hstop
    · intro hjoin
      exact hh.trans (h.handle (hj.symm.trans hjoin))
  | lost hp hj =>
    have hw := hok.not_won (.inr hp)
    exact h.set hc (getElem?_setCall hc) (.of_not_won hw nofun nofun)
      (fun j e _ he => (h.calls j e he).mono id (fun _ => id) id) .inl h.handle rfl
  | won hp hj =>
    have hnone : ∀ (j : Nat) (e : InCall A), s.calls[j]? = some e → e.won = false := by
      intro j e he
      by_contra hw
      rw [(h.calls j e he).won (by simpa using hw)] at hj; cases hj
    refine h.set hc (getElem?_setCall hc) ?_ (fun j e _ he => ?_) (fun _ => .inr hnone) nofun rfl
    · exact ⟨fun _ => rfl, fun _ => ⟨rfl, h.handle hj⟩, fun _ => rfl, nofun, fun _ => ⟨nofun, nofun⟩⟩
    · exact (h.calls j e he).mono (fun _ => rfl) (fun _ => id) id
  | take hp hh =>
    have hw := (hok.take hp).1
    have hj := hok.won hw
    refine h.set hc (getElem?_setCall hc) ?_ (fun j e hji he => ?_) (fun _ => .inl hw) ?_ rfl
    · exact ⟨fun _ => hj, nofun, fun _ => hw, nofun, fun _ => ⟨nofun, nofun⟩⟩
    · refine (h.calls j e he).mono id (fun ht _ => ?_) id
      exact absurd (h.once j i e c he hc ((h.calls j e he).take ht).1 hw) hji
    · intro hf
      cases hj.symm.trans hf
  | unwrapFails hp hh => rw [(hok.take hp).2] at hh; cases hh
  | joined hp hs =>
    have hw := hok.waiting hp
    refine h.set hc (getElem?_setCall hc) ?_ (fun j e _ he => ?_) (fun _ => .inl hw) h.handle rfl
    · exact ⟨fun _ => hok.won hw, nofun, nofun, fun _ _ _ => hs, fun _ => ⟨nofun, nofun⟩⟩
    · exact (h.calls j e he).mono id (fun _ => id) id

theorem begin_cases (call : ApiCall A) :
    call.begin.call = call ∧ call.begin.won = false ∧
      (call = .join ∧ call.begin.pc = .exchange ∨ call ≠ .join ∧ call.begin.pc = .send) := by
  cases call with
  | join => exact ⟨rfl, rfl, .inl ⟨rfl, rfl⟩⟩
  | _ => exact ⟨rfl, rfl, .inr ⟨nofun, rfl⟩⟩

theorem getElem?_call {call : ApiCall A} {j : Nat} {e : InCall A}
    (h : (s.calls ++ [call.begin])[j]? = some e) :
    s.calls[j]? = some e ∨ j = s.calls.length ∧ e = call.begin := by
  rcases lt_trichotomy j s.calls.length with hj | rfl | hj
  · rw [List.getElem?_append_left hj] at h; exact .inl h
  · rw [List.getElem?_concat_length] at h
    exact .inr ⟨rfl, (Option.some.inj h).symm⟩
  · rw [List.getElem?_eq_none (by simp; omega)] at h; cases h

theorem JoinInv.step [DecidableEq A] (h : JoinInv s) (hs : s.step fl a = some s') : JoinInv s' := by
  cases step_cases hs with
  | call call =>
    obtain ⟨-, hw, hpc⟩ := begin_cases call
    refine ⟨fun j e he => ?_, fun j k e f he hf hew hfw => ?_, h.handle, h.unwrap⟩
    · rcases getElem?_call he with he | ⟨-, rfl⟩
      · exact (h.calls j e he).mono id (fun _ => id) id
      · refine .of_not_won hw ?_ ?_ <;>
          rcases hpc with ⟨-, hpc⟩ | ⟨-, hpc⟩ <;> rw [hpc] <;> nofun
    · rcases getElem?_call he with he | ⟨-, rfl⟩
      · rcases getElem?_call hf with hf | ⟨-, rfl⟩
        · exact h.once j k e f he hf hew hfw
        · rw [hw] at hfw; cases hfw
      · rw [hw] at hew; cases hew
  | next hc hn => exact h.next hc hn
  | background hr =>
    refine ⟨fun j e he => ?_, h.once, h.handle, h.unwrap⟩
    exact (h.calls j e he).mono id (fun _ => id) fun hp => Runtime.step_stopped hr hp

theorem reach_joinInv [DecidableEq A] {nThreads : Nat} (hr : (machine A nThreads).Reach s) :
    JoinInv s := by
  have hnil : ∀ (i : Nat) (c : InCall A), (init : Shared A).calls[i]? ≠ some c := by simp [init]
  refine hr.invariant (I := JoinInv) ⟨fun i c hc => absurd hc (hnil i c),
    fun i j c d hc => absurd hc (hnil i c), fun _ => rfl, rfl⟩ ?_
  intro _ _ _ h hs
  exact h.step hs

/-! ### Calls that begin when the thread has ended -/

/-- What such a call returns. -/
def late : ApiCall A → Except String Unit
  | .abort _ | .join => .ok ()
  | _ => .error "socket manager has stopped"

/-- How many steps such a call has left at most. -/
def left : CallPc → Nat
  | .send => 2
  | .exchange => 1
  | _ => 0

/-- Where such a call is: it never waits. -/
def LateCall (c : InCall A) : Prop :=
  c.pc = .send ∧ c.call ≠ .join ∨ c.pc = .exchange ∧ late c.call = .ok () ∨
    c.pc = .returned (late c.call)

/-- The thread has ended, somebody has joined it, and the calls from the `n`-th on began later. -/
structure Over (n : Nat) (s : Shared A) : Prop where
  stopped : s.runtime.phase = .stopped
  joined : s.hasJoined = true
  calls : ∀ (j : Nat) (c : InCall A), n ≤ j → s.calls[j]? = some c → LateCall c

theorem cmdRecv_stopped {rt : Runtime A} (h : rt.phase = .stopped) : rt.cmdRecv = false := by
  simp [Runtime.cmdRecv, h]

theorem lateCall_begin (call : ApiCall A) : LateCall call.begin := by
  cases call with
  | join => exact .inr (.inl ⟨rfl, rfl⟩)
  | _ => exact .inl ⟨rfl, nofun⟩

theorem lateCall_sent (hne : c.call ≠ .join) : LateCall { c with pc := c.call.sent false } := by
  unfold LateCall
  cases hcall : c.call with
  | abort wait =>
    cases wait with
    | true => exact .inr (.inl ⟨rfl, rfl⟩)
    | false => exact .inr (.inr rfl)
  | join => exact absurd hcall hne
  | listenOnAddr _ | connectToAddr _ _ | cancelListenOnAddr _ => exact .inr (.inr rfl)

/-- Rule for a step of call `i`. -/
theorem Over.set {n : Nat} (h : Over n s) {d : InCall A}
    (hcalls : ∀ j, s'.calls[j]? = if j = i then some d else s.calls[j]?) (hd : n ≤ i → LateCall d)
    (hp : s'.runtime.phase = s.runtime.phase) (hj : s'.hasJoined = s.hasJoined) : Over n s' := by
  refine ⟨hp.trans h.stopped, hj.trans h.joined, fun j e hn he => ?_⟩
  rw [hcalls] at he
  split at he
  · rename_i hji
    cases he; exact hd (hji ▸ hn)
  · exact h.calls j e hn he

theorem Over.next {n : Nat} (h : Over n s) (hc : s.calls[i]? = some c) (hn : Next s i c s') :
    Over n s' := by
  have hlate : n ≤ i → LateCall c := fun hle => h.calls i c hle hc
  cases hn with
  | @send cmd hp hcmd =>
    obtain ⟨hcs, hj, -, -, hph⟩ := send_frame (s := s) cmd
    refine h.set (i := i) (d := { c with pc := c.call.sent s.runtime.cmdRecv }) (fun j => ?_)
      (fun hle => ?_) hph hj
    · rw [getElem?_setCall (hcs ▸ hc), hcs]
    · rw [cmdRecv_stopped h.stopped]
      rcases hlate hle with ⟨-, hne⟩ | ⟨hpc, -⟩ | hpc
      · exact lateCall_sent hne
      · rw [hp] at hpc; cases hpc
      · rw [hp] at hpc; cases hpc
  | lost hp hj =>
    refine h.set (getElem?_setCall hc) (fun hle => ?_) rfl rfl
    rcases hlate hle with ⟨hpc, -⟩ | ⟨-, hok⟩ | hpc
    · rw [hp] at hpc; cases hpc
    · exact .inr (.inr (by rw [hok]))
    · rw [hp] at hpc; cases hpc
  | won hp hj => rw [h.joined] at hj; cases hj
  | take hp | joined hp =>
    refine h.set (getElem?_setCall hc) (fun hle => ?_) rfl rfl
    rcases hlate hle with ⟨hpc, -⟩ | ⟨hpc, -⟩ | hpc <;> (rw [hp] at hpc; cases hpc)
  | unwrapFails hp hh => exact ⟨h.stopped, h.joined, h.calls⟩

theorem Over.step [DecidableEq A] {n : Nat} (h : Over n s) (hs : s.step fl a = some s') :
    Over n s' := by
  cases step_cases hs with
  | call call =>
    refine ⟨h.stopped, h.joined, fun j e hn he => ?_⟩
    rcases getElem?_call he with he | ⟨-, rfl⟩
    · exact h.calls j e hn he
    · exact lateCall_begin call
  | next hc hn => exact h.next hc hn
  | background hr => exact ⟨Runtime.step_stopped hr h.stopped, h.joined, h.calls⟩

/-- A call that began then can always go on, and is soon at its end. -/
theorem Over.goes_on [DecidableEq A] {n : Nat} (h : Over n s) (hn : n ≤ i)
    (hc : s.calls[i]? = some c) (hp : ∀ res, c.pc ≠ .returned res) :
    ∃ s' d, s.step fl (.next i) = some s' ∧ s'.calls[i]? = some d ∧ left d.pc < left c.pc := by
  have hstep : s.step fl (.next i) = s.next i c := by simp [Shared.step, hc]
  rcases h.calls i c hn hc with ⟨hpc, hne⟩ | ⟨hpc, -⟩ | hpc
  · obtain ⟨cmd, hcmd⟩ : ∃ cmd, c.call.command = some cmd := by
      cases hcall : c.call with
      | join => exact absurd hcall hne
      | _ => exact ⟨_, rfl⟩
    have hcs := (send_frame (s := s) cmd).1
    refine ⟨_, _, by rw [hstep, Shared.next, hpc, hcmd]; rfl,
      (getElem?_setCall (hcs ▸ hc) i).trans (if_pos rfl), ?_⟩
    rcases sent_cases c.call s.runtime.cmdRecv with hs | ⟨res, hs⟩ <;> simp [hs, hpc, left]
  · refine ⟨_, _, by rw [hstep, Shared.next, hpc]; simp only [h.joined]; rfl,
      (getElem?_setCall hc i).trans (if_pos rfl), ?_⟩
    rw [hpc]; exact Nat.zero_lt_one
  · exact absurd hpc (hp _)

/-- The call that wins the exchange of `has_joined` waits for the background thread: when it has
    returned the thread has finished, and from then on every command that begins is refused and every
    `abort` and `join` that begins returns `Ok` without waiting. A `join` that loses the exchange
    returns `Ok` at once, and nobody takes the handle twice. -/
theorem first_join_waits (A : Type) [DecidableEq A] (nThreads : Nat) (s : Shared A)
    (hr : (machine A nThreads).Reach s) :
    (∀ (i : Nat) (c : InCall A) (res : Except String Unit), s.calls[i]? = some c → c.won = true →
      c.pc = .returned res →
      s.runtime.phase = .stopped ∧
      ∀ t, (machine A nThreads).Path (fun _ _ => True) s t →
        ∀ (j : Nat) (d : InCall A), s.calls.length ≤ j → t.calls[j]? = some d →
          (∀ res, d.pc = .returned res → res = late d.call) ∧
          ((∀ res, d.pc ≠ .returned res) → ∃ u d', t.step (startRuntime nThreads) (.next j) = some u ∧
            u.calls[j]? = some d' ∧ left d'.pc < left d.pc)) ∧
    (∀ (i : Nat) (c : InCall A), s.calls[i]? = some c → c.call = .join → c.pc = .exchange →
      s.hasJoined = true → ∃ t, s.step (startRuntime nThreads) (.next i) = some t ∧
        t.calls[i]? = some { c with pc := .returned (.ok ()) }) ∧
    s.unwrapFailed = false := by
  have h := reach_joinInv hr
  refine ⟨fun i c res hc hw hp => ?_, fun i c hc _ hp hj => ?_, h.unwrap⟩
  · have hstop := (h.calls i c hc).returned res hw hp
    refine ⟨hstop, fun t hpath j d hn hd => ?_⟩
    have h0 : Over s.calls.length s := by
      refine ⟨hstop, (h.calls i c hc).won hw, fun j e hn he => ?_⟩
      rw [List.getElem?_eq_none hn] at he; cases he
    have hover : Over s.calls.length t := hpath.invariant h0 fun _ _ _ _ h hs => h.step hs
    refine ⟨fun res hres => ?_, hover.goes_on hn hd⟩
    rcases hover.calls j d hn hd with ⟨hpc, -⟩ | ⟨hpc, -⟩ | hpc
    · rw [hres] at hpc; cases hpc
    · rw [hres] at hpc; cases hpc
    · rw [hres] at hpc
      exact CallPc.returned.inj hpc
  · refine ⟨_, ?_, (getElem?_setCall hc i).trans (if_pos rfl)⟩
    simp [Shared.step, Shared.next, hc, hp, hj]

/-- `join` waits until another thread calls `abort`; the calls after that. -/
theorem first_join_waits_abort : ∃ s : Shared Nat, (machine Nat 1).Reach s ∧
    s.calls[0]? = some ⟨.join, .returned (.ok ()), true⟩ ∧ s.runtime.phase = .stopped ∧
    s.unwrapFailed = false := by
  obtain ⟨s, hr, hs⟩ := (machine Nat 1).reach_of_run
    [.call .join, .next 0, .next 0, .call (.abort false), .next 1, .background .recv,
      .background .clear, .background (.blockOnEnds false), .background .stop, .next 0]
    (fun s => decide (s.calls[0]? = some (⟨.join, .returned (.ok ()), true⟩ : InCall Nat)))
    (by decide +kernel)
  have hc := of_decide_eq_true hs
  obtain ⟨hwait, -, hunwrap⟩ := first_join_waits Nat 1 s hr
  exact ⟨s, hr, hc, (hwait 0 _ _ hc rfl rfl).1, hunwrap⟩

/-- While the first `join` waits, a second one returns: the thread is running, and a command that
    begins afterwards is accepted. -/
theorem second_join_returns_early : ∃ s : Shared Nat, (machine Nat 4).Reach s ∧
    s.calls[1]? = some ⟨.join, .returned (.ok ()), false⟩ ∧ s.runtime.phase = .blockOn ∧
    ∃ t, (machine Nat 4).Path (fun _ _ => True) s t ∧ s.calls.length ≤ 2 ∧
      t.calls[2]? = some ⟨.listenOnAddr 7, .returned (.ok ()), false⟩ := by
  obtain ⟨s, hr, hs⟩ := (machine Nat 4).reach_of_run
    [.call .join, .next 0, .next 0, .call .join, .next 1]
    (fun s => decide (s.calls[1]? = some (⟨.join, .returned (.ok ()), false⟩ : InCall Nat) ∧
        s.runtime.phase = .blockOn ∧ s.calls.length ≤ 2) &&
      (machine Nat 4).reaches (fun _ _ => True) [.call (.listenOnAddr 7), .next 2]
        (fun t => decide
          (t.calls[2]? = some (⟨.listenOnAddr 7, .returned (.ok ()), false⟩ : InCall Nat))) s)
    (by decide +kernel)
  rw [Bool.and_eq_true] at hs
  obtain ⟨hc, hphase, hlen⟩ := of_decide_eq_true hs.1
  obtain ⟨t, hpath, ht⟩ := Machine.path_of_reaches hs.2
  exact ⟨s, hr, hc, hphase, t, hpath, hlen, of_decide_eq_true ht⟩

end Shared

end SocketManager.Manager
