import SocketManager.Api.Connection
import SocketManager.Outgoing.Wakers

/-! Who keeps a notifier alive. The `Connection` object owns it (connection.cc), `send_async` passes
    its raw pointer to the runtime (msg_sender.cc), and the pointer stays in the waker slot of a ring
    after the call has returned. The object itself is shared:

        conns ─────────┐                          ┌ · · waker slot of a ring
        the user ──────┼──▶ Connection ──▶ notifier
        MsgSender ─────┘                          └ · · the call of `wake`

    `start` replaces the notifier. `OnConnectionClose`, the user and the destructor of `MsgSender`
    each let go of the object. None of them looks at the slots, or waits for a call of `wake`: the
    writer takes the pointer out of its slot first and calls through it then (notifier.rs,
    `socket_manager_extern_notifier_wake`), and the other threads go on in between.

    A step is a step of the Rust side (the connection task, the calls on the `Conn`), of the outgoing
    side (the calls on the sender, the writer), or one of the above. The runtime may drop the writer
    task at any of its awaits, as it does on abort and on its own shutdown. From the step that takes
    a pointer to the return of the call the writer does nothing else. -/

namespace SocketManager.Api
open Manager

/-- The pointer `notifier.get()`, as if no address were ever used twice. -/
def Notifier.addr : Notifier → Nat
  | .noop => 0
  | .user n => n + 1

theorem Notifier.addr_inj {m n : Notifier} (h : m.addr = n.addr) : m = n := by
  cases m <;> cases n <;> simp_all [addr]

/-- One connection with its two C++ objects. -/
structure Endpoint (R : RingBuffer UInt8) (A : Type) where
  connection : Connection A
  out : Outgoing.State R
  /-- `ConnCallback::conns` refers to the `Connection`. -/
  inConns : Bool
  /-- The user refers to it. -/
  userRef : Bool
  /-- The `MsgSender` is alive and refers to it. -/
  senderRef : Bool
  /-- The pointer that was taken from a slot, until the call of `wake` through it has returned. -/
  waking : Option Nat

/-- What happens to it. -/
inductive Endpoint.Act (A : Type) where
  /-- The user calls `Connection::start`. -/
  | start (msgReceiver : Option Nat) (sendNotifier : Option Notifier)
  /-- A step of the Rust side. -/
  | inner (b : ConnAct A)
  /-- A step of the outgoing side. -/
  | out (a : Outgoing.Act)
  /-- The last reference of the user goes. -/
  | dropUser
  /-- The destructor of `MsgSender` has freed the Rust sender and lets go of the `Connection`. -/
  | releaseSender
  /-- `notifier->wake()` returns. -/
  | wakeReturns
  deriving DecidableEq

namespace Endpoint
variable {R : RingBuffer UInt8} {A : Type} {config : ConnConfig} {s s' : Endpoint R A} {a : Act A}

/-! ### The model -/

/-- The `Connection` object exists. -/
def alive (s : Endpoint R A) : Bool := s.inConns || s.userRef || s.senderRef

/-- A reference was dropped; with the last one `~Connection` frees the `Conn`. -/
def release (s : Endpoint R A) : Endpoint R A :=
  if s.alive then s
  else { s with connection := { s.connection with inner :=
    { s.connection.inner with handle := false, inner := false } } }

/-- Which steps of the Rust side can be next: only `release` drops the `Conn`, `close` is called
    through a reference, and the writer task ends with what its code returned, and not while it is
    in a call of `wake`. -/
def allows (s : Endpoint R A) : ConnAct A → Bool
  | .dropHandle => false
  | .close => s.userRef
  | .writer (.finish .ok) => decide (s.out.writer = .returned .ok)
  | .writer (.finish .err) => decide (s.out.writer = .returned .err)
  | .writer _ => s.waking.isNone
  | _ => true

/-- Which steps of the outgoing side can be next: the user calls through the `MsgSender`, whose
    `send_async` passes `conn->notifier.get()`; the writer runs while its task is polled, or while
    the runtime drops it, and not while it is in a call of `wake`. -/
def allowsOut (s : Endpoint R A) : Outgoing.Act → Bool
  | .call (.sendAsync _ waker) =>
    s.senderRef && decide (waker = .notifier s.connection.notifier.addr)
  | .call _ | .sender | .repoll | .dropSender => s.senderRef
  | .abort => s.waking.isNone
  | _ => s.waking.isNone &&
    (decide (s.connection.inner.writer.st = .polling) || !s.out.writer.running)

/-- What `socket_manager_extern_on_conn` does with the references when the Rust side takes step `b`. -/
def externOnConn (s : Endpoint R A) (b : ConnAct A) (connection : Connection A) : Endpoint R A :=
  match b, s.connection.inner.pc with
  | .task, .onConnect => { s with connection, inConns := true, userRef := true, senderRef := true }
  | .task, .closing => { s with connection, inConns := false }.release
  | _, _ => { s with connection }

def step (config : ConnConfig) (s : Endpoint R A) : Act A → Option (Endpoint R A)
  | .start msgReceiver sendNotifier =>
    if s.userRef then
      (s.connection.step (.start msgReceiver sendNotifier)).map fun connection => { s with connection }
    else none
  | .inner b =>
    if s.allows b then (s.connection.step (.inner b)).map (s.externOnConn b) else none
  | .out a =>
    if s.allowsOut a then
      (Outgoing.step config s.out a).map fun out =>
        { s with out, waking := (s.out.takes a).or s.waking }
    else none
  | .dropUser =>
    if s.userRef ∧ s.connection.inner.calls = [] then some { s with userRef := false }.release
    else none
  | .releaseSender =>
    if s.senderRef ∧ s.out.sender = .dropped then some { s with senderRef := false }.release
    else none
  | .wakeReturns => if s.waking.isSome then some { s with waking := none } else none

def init : Endpoint R A := ⟨Connection.init, Outgoing.makeSender, false, false, false, none⟩

def machine (R : RingBuffer UInt8) (config : ConnConfig) (A : Type) :
    Machine (Endpoint R A) (Act A) :=
  ⟨init, step config⟩

/-! ### Ownership -/

/-- The pointers that are called or can still be: the one that was taken from its slot, and those
    that stand in a slot where the writer can still come to them. -/
def callable (s : Endpoint R A) : List Nat := s.waking.toList ++ s.out.registered

/-- Every notifier that is called or can still be is the one that a live `Connection` holds. -/
def Owned (s : Endpoint R A) : Prop :=
  ∀ p ∈ s.callable, s.alive = true ∧ p = s.connection.notifier.addr

/-- The step takes no notifier away that is called or can still be, and registers none that is
    gone. -/
def Safe (s : Endpoint R A) : Act A → Prop
  | .start msgReceiver sendNotifier =>
    msgReceiver = none ∨ sendNotifier.getD s.connection.notifier = s.connection.notifier ∨
      s.callable = []
  | .inner b => b = .task → s.connection.inner.pc = .closing →
      s.userRef = true ∨ s.senderRef = true ∨ s.callable = []
  | .out a => a = .sender → ∀ p, s.out.Registers p → p = s.connection.notifier.addr
  | .dropUser => s.inConns = true ∨ s.senderRef = true ∨ s.callable = []
  | .releaseSender => s.inConns = true ∨ s.userRef = true ∨ s.callable = []
  | .wakeReturns => True

/-! ### What a step can do -/

/-- The steps, as far as references, notifier, slots and calls go. -/
inductive Move (config : ConnConfig) (s : Endpoint R A) : Act A → Endpoint R A → Prop where
  | null {n : Option Notifier} : Move config s (.start none n) s
  | start {r : Nat} {n : Option Notifier} {connection : Connection A} (hu : s.userRef = true)
      (hn : connection.notifier = n.getD s.connection.notifier) :
      Move config s (.start (some r) n) { s with connection }
  | connect {connection : Connection A} (hp : s.connection.inner.pc = .onConnect)
      (hn : connection.notifier = s.connection.notifier) :
      Move config s (.inner .task)
        { s with connection, inConns := true, userRef := true, senderRef := true }
  | close {connection : Connection A} (hp : s.connection.inner.pc = .closing)
      (hn : connection.notifier = s.connection.notifier) :
      Move config s (.inner .task) ({ s with connection, inConns := false }.release)
  | inner {b : ConnAct A} {connection : Connection A}
      (hb : b = .task → s.connection.inner.pc ≠ .closing)
      (hn : connection.notifier = s.connection.notifier) :
      Move config s (.inner b) { s with connection }
  | out {a : Outgoing.Act} {out : Outgoing.State R} (hu : a.ofUser = true → s.senderRef = true)
      (hs : Outgoing.step config s.out a = some out) :
      Move config s (.out a) { s with out, waking := (s.out.takes a).or s.waking }
  | dropUser : Move config s .dropUser ({ s with userRef := false }.release)
  | releaseSender : Move config s .releaseSender ({ s with senderRef := false }.release)
  | wakeReturns : Move config s .wakeReturns { s with waking := none }

theorem externOnConn_move {b : ConnAct A} {connection : Connection A}
    (hn : connection.notifier = s.connection.notifier) :
    Move config s (.inner b) (s.externOnConn b connection) := by
  unfold externOnConn
  split
  · rename_i hp
    exact .connect hp hn
  · rename_i hp
    exact .close hp hn
  · rename_i hclose
    exact .inner (fun hb hp => hclose hb hp) hn

theorem allowsOut_user {a : Outgoing.Act} (h : s.allowsOut a = true) (ha : a.ofUser = true) :
    s.senderRef = true := by
  cases a with
  | call op =>
    cases op with
    | sendAsync bytes waker =>
      simp only [allowsOut, Bool.and_eq_true] at h
      exact h.1
    | _ => exact h
  | sender | repoll | dropSender => exact h
  | _ => cases ha

theorem step_move (hs : s.step config a = some s') : Move config s a s' := by
  cases a with
  | start r n =>
    simp only [step] at hs
    split at hs
    · rename_i hu
      obtain ⟨connection, hc, rfl⟩ := Option.map_eq_some_iff.mp hs
      simp only [Connection.step] at hc
      split at hc
      · obtain ⟨⟨res, t⟩, hstart, rfl⟩ := Option.map_eq_some_iff.mp hc
        cases r with
        | none => cases hstart; exact .null
        | some r =>
          obtain ⟨_, -, heq⟩ := Option.map_eq_some_iff.mp hstart
          cases heq
          exact .start hu rfl
      · cases hc
    · cases hs
  | inner b =>
    simp only [step] at hs
    split at hs
    · obtain ⟨connection, hc, rfl⟩ := Option.map_eq_some_iff.mp hs
      simp only [Connection.step] at hc
      split at hc
      · cases hc
      · obtain ⟨inner, -, rfl⟩ := Option.map_eq_some_iff.mp hc
        exact externOnConn_move rfl
    · cases hs
  | out a =>
    simp only [step] at hs
    split at hs
    · rename_i hallow
      obtain ⟨out, hout, rfl⟩ := Option.map_eq_some_iff.mp hs
      exact .out (allowsOut_user hallow) hout
    · cases hs
  | dropUser =>
    simp only [step] at hs
    split at hs
    · cases hs; exact .dropUser
    · cases hs
  | releaseSender =>
    simp only [step] at hs
    split at hs
    · cases hs; exact .releaseSender
    · cases hs
  | wakeReturns =>
    simp only [step] at hs
    split at hs
    · cases hs; exact .wakeReturns
    · cases hs

/-! ### One step -/

theorem mem_callable {p : Nat} : p ∈ s.callable ↔ s.waking = some p ∨ p ∈ s.out.registered := by
  simp [callable]

@[simp] theorem release_out : s.release.out = s.out := by unfold release; split <;> rfl

@[simp] theorem release_alive : s.release.alive = s.alive := by unfold release; split <;> rfl

@[simp] theorem release_waking : s.release.waking = s.waking := by unfold release; split <;> rfl

@[simp] theorem release_notifier : s.release.connection.notifier = s.connection.notifier := by
  unfold release; split <;> rfl

/-- A step that leaves slots and calls alone needs the object and its notifier to stay, or that no
    notifier is called and none can be. -/
theorem Owned.kept_iff (h : s.Owned) (ho : s'.callable = s.callable) :
    s'.Owned ↔ s'.alive = true ∧ s'.connection.notifier = s.connection.notifier ∨
      s.callable = [] := by
  unfold Owned
  rw [ho]
  constructor
  · intro h'
    rcases List.eq_nil_or_concat s.callable with hnil | ⟨l, p, hl⟩
    · exact .inr hnil
    · have hp : p ∈ s.callable := by simp [hl]
      exact .inl ⟨(h' p hp).1, Notifier.addr_inj ((h' p hp).2.symm.trans (h p hp).2)⟩
  · rintro (⟨halive, hn⟩ | hnil) p hp
    · rw [hn]; exact ⟨halive, (h p hp).2⟩
    · rw [hnil] at hp; cases hp

/-- A step of the outgoing side needs what it registers to be the notifier of the connection. What it
    takes from a slot stood there before. -/
theorem Owned.out_iff (h : s.Owned) (hfree : Outgoing.NewRingFree s.out) {a : Outgoing.Act}
    {out : Outgoing.State R} (hu : a.ofUser = true → s.senderRef = true)
    (hs : Outgoing.step config s.out a = some out) :
    Owned { s with out, waking := (s.out.takes a).or s.waking } ↔ s.Safe (.out a) := by
  constructor
  · rintro h' rfl p hp
    exact (h' p (mem_callable.mpr (.inr (Outgoing.registered_of_registers hp hs)))).2
  · intro hsafe p hp
    have hold : p ∈ s.out.registered → s.alive = true ∧ p = s.connection.notifier.addr :=
      fun hreg => h p (mem_callable.mpr (.inr hreg))
    rcases mem_callable.mp hp with hwaking | hp
    · rcases Option.or_eq_some_iff.mp hwaking with htakes | ⟨-, hwaking⟩
      · exact hold (Outgoing.takes_registered htakes)
      · exact h p (mem_callable.mpr (.inl hwaking))
    · have hp : p ∈ out.registered := hp
      cases ha : a.ofUser with
      | false => exact hold (Outgoing.registered_writerMove (Outgoing.step_writer ha hs) hp)
      | true =>
        have halive : s.alive = true := by simp [alive, hu ha]
        rcases Outgoing.registered_senderMove hfree (Outgoing.step_user ha hs) hp with hreg | hreg
        · exact hold hreg
        · exact ⟨halive, hsafe (hreg.sender ha hs) p hreg⟩

theorem Owned.step_iff (h : s.Owned) (hfree : Outgoing.NewRingFree s.out)
    (hs : s.step config a = some s') : s'.Owned ↔ s.Safe a := by
  cases step_move hs with
  | null => exact iff_of_true h (.inl rfl)
  | out hu hout => exact h.out_iff hfree hu hout
  | start hu hn =>
    refine (h.kept_iff ?_).trans ?_
    · rfl
    · simp [Safe, alive, hu, hn]
  | connect hp hn =>
    refine iff_of_true ((h.kept_iff ?_).mpr ?_) fun _ hclosing => ?_
    · rfl
    · exact .inl ⟨rfl, hn⟩
    · rw [hp] at hclosing; cases hclosing
  | inner hb hn =>
    refine iff_of_true (fun p hp => ?_) fun htask hp => absurd hp (hb htask)
    rw [hn]; exact h p hp
  | wakeReturns =>
    refine iff_of_true (fun p hp => h p ?_) trivial
    rcases mem_callable.mp hp with hwaking | hreg
    · cases hwaking
    · exact mem_callable.mpr (.inr hreg)
  | close hp hn =>
    rw [h.kept_iff (by simp [callable]), release_alive]
    simp [Safe, alive, hp, hn, or_assoc]
  | dropUser =>
    rw [h.kept_iff (by simp [callable]), release_alive]
    simp [Safe, alive, or_assoc]
  | releaseSender =>
    rw [h.kept_iff (by simp [callable]), release_alive]
    simp [Safe, alive, or_assoc]

/-! ### Every run -/

theorem step_out (hs : s.step config a = some s') :
    s'.out = s.out ∨ ∃ b, Outgoing.step config s.out b = some s'.out := by
  cases step_move hs with
  | out _ hout => exact .inr ⟨_, hout⟩
  | close | dropUser | releaseSender => exact .inl release_out
  | null | start | connect | inner | wakeReturns => exact .inl rfl

theorem reach_out (hr : (machine R config A).Reach s) :
    (Outgoing.machine R config).Reach s.out := by
  refine Machine.Path.project (f := Endpoint.out) hr fun _ _ _ _ hs => ?_
  rcases step_out hs with heq | ⟨b, hb⟩
  · rw [heq]; exact .refl
  · exact .single (a := b) trivial hb

theorem step_takes (hs : s.step config a = some s') {p : Nat}
    (hw : s'.out.woken = s.out.woken ++ [.notifier p]) :
    s'.waking = some p ∧ p ∈ s.out.registered := by
  cases step_move hs with
  | out _ hout =>
    have htakes := Outgoing.takes_of_woken hout hw
    exact ⟨by simp [htakes], Outgoing.takes_registered htakes⟩
  | close | dropUser | releaseSender => simp at hw
  | null | start | connect | inner | wakeReturns => simp at hw

/-- In a run of safe steps every notifier that is registered, or was taken from its slot to be called
    by a call that has not returned, is the one a live `Connection` holds; every wake begins with
    such a taking; and a step from a state that has this keeps it if and only if it is safe. -/
theorem owned_iff_safe (R : RingBuffer UInt8) (config : ConnConfig) (A : Type) :
    (∀ s : Endpoint R A, (machine R config A).Path Safe init s → s.Owned ∧
      (∀ p, s.waking = some p → s.alive = true ∧ p = s.connection.notifier.addr) ∧
      ∀ a s' p, s.step config a = some s' → s'.out.woken = s.out.woken ++ [.notifier p] →
        s'.waking = some p ∧ s.alive = true ∧ p = s.connection.notifier.addr) ∧
    (∀ (s s' : Endpoint R A) a, (machine R config A).Reach s → s.Owned →
      s.step config a = some s' → (s'.Owned ↔ s.Safe a)) := by
  have hfree : ∀ s : Endpoint R A, (machine R config A).Reach s → Outgoing.NewRingFree s.out :=
    fun s hr => Outgoing.reach_newRingFree (reach_out hr)
  refine ⟨fun s hp => ?_, fun s s' a hr h hs => h.step_iff (hfree s hr) hs⟩
  have howned : s.Owned := by
    refine Machine.Path.invariant_of_reach hp nofun ?_
    intro t a u hr hsafe h hs
    exact (h.step_iff (hfree t hr) hs).mpr hsafe
  refine ⟨howned, fun p hw => howned p (mem_callable.mpr (.inl hw)), fun a s' p hs hw => ?_⟩
  obtain ⟨hwaking, hreg⟩ := step_takes hs hw
  exact ⟨hwaking, howned p (mem_callable.mpr (.inr hreg))⟩

/-! ### Two runs -/

/-- Calls on the sender that bring the notifier of the connection. -/
theorem path_out {out : Outgoing.State R} (hu : s.senderRef = true)
    (hp : (Outgoing.machine R config).Path
      (Outgoing.Uses (.notifier s.connection.notifier.addr)) s.out out) :
    (machine R config A).Path Safe s { s with out } := by
  induction hp with
  | refl => exact .refl
  | @tail t u a _ huses hs ih =>
    obtain ⟨op, hop, hwaker⟩ := huses
    have hallow : allowsOut { s with out := t } a = true := by
      rcases hop with rfl | ⟨rfl, -⟩
      · cases op with
        | sendAsync bytes w => simp [allowsOut, hu, hwaker bytes w rfl]
        | _ => exact hu
      · exact hu
    refine ih.tail (a := .out a) ?_ ?_
    · rintro rfl p ⟨⟨bytes, hsd⟩, -⟩
      rcases hop with hcall | ⟨-, hcall⟩
      · cases hcall
      · have hsd : t.sender = .registerWaker bytes (.notifier p) := hsd
        rw [hsd] at hcall
        have := hwaker bytes _ (Option.some.inj hcall).symm
        cases this; rfl
    · have hs : Outgoing.step config t a = some u := hs
      have htakes : t.takes a = none := by
        rcases hop with rfl | ⟨rfl, -⟩ <;> rfl
      show step config { s with out := t } (.out a) = some { s with out := u }
      simp only [step, hallow, hs, htakes]
      rfl

/-- The ring in which a notifier is registered is queued for a writer that waits for it. -/
structure Queued (out : Outgoing.State R) (p : Nat) : Prop where
  writer : out.writer = .recv
  rxHeld : out.rxHeld = true
  queue : out.queue = [out.ringBuf]
  slot : (out.rings out.ringBuf).waker = some (.notifier p)

theorem Queued.registered {out : Outgoing.State R} {p : Nat} (h : Queued out p) :
    p ∈ out.registered := by
  refine Outgoing.mem_registered.mpr ⟨out.ringBuf, Outgoing.mem_inReach.mpr ?_, h.slot⟩
  right; left
  rw [h.queue]
  exact List.mem_singleton_self _

/-- A full ring and one more `send_async`: the notifier of the connection is registered. -/
theorem path_registered (config : ConnConfig) (ho : s.out = Outgoing.makeSender)
    (hu : s.senderRef = true) : ∃ out : Outgoing.State R,
      (machine R config A).Path Safe s { s with out } ∧ Queued out s.connection.notifier.addr := by
  obtain ⟨full, hpfull, hfull, hw, hq, hrx, -, hidle⟩ :=
    Outgoing.path_full R config (.notifier s.connection.notifier.addr)
  obtain ⟨out, hpend, hleft⟩ := Outgoing.path_pending config
    (.notifier s.connection.notifier.addr) hfull (List.cons_ne_nil 1 [])
  have hcall : (Outgoing.machine R config).step full
      (.call (.sendAsync [1] (.notifier s.connection.notifier.addr))) = some _ := if_pos hidle
  refine ⟨out, path_out hu ?_, hleft.writer.trans hw, hleft.rxHeld.trans hrx, ?_, ?_⟩
  · rw [ho]
    refine (hpfull.tail ⟨_, .inl rfl, ?_⟩ hcall).trans
      (hpend.mono fun _ _ hown => ⟨_, .inr hown, ?_⟩)
    · rintro _ _ ⟨⟩; rfl
    · rintro _ _ ⟨⟩; rfl
  · rw [hleft.queue, hq, hleft.ringBuf]
  · rw [hleft.ringBuf]; exact hleft.slot

/-- The task is aborted, drops what is queued, and calls the notifier. -/
theorem path_waking (config : ConnConfig) {p : Nat} (h : Queued s.out p) (hw : s.waking = none) :
    ∃ t, (machine R config A).Path Safe s t ∧ t.waking = some p ∧ t.connection = s.connection := by
  let t₁ : Outgoing.State R := s.out.writerAt (.unwind none .aborted)
  let t₂ : Outgoing.State R := { t₁ with rxHeld := false }
  let t₃ : Outgoing.State R := ({ t₂ with queue := [] }.updRing s.out.ringBuf
    fun r => { r with consHeld := false }).writerAt (.unwindWake s.out.ringBuf .aborted)
  have hslot : (t₃.rings s.out.ringBuf).waker = some (.notifier p) := by
    rw [Outgoing.State.writerAt_rings, Outgoing.State.updRing_self]; exact h.slot
  have htakes : t₃.takes .writer = some p := congrArg (Option.bind · Outgoing.Waker.this?) hslot
  have h₁ : step config s (.out .abort) = some { s with out := t₁ } := by
    simp [step, allowsOut, Outgoing.step, h.writer, Outgoing.WriterPc.awaits, Outgoing.State.takes, hw,
      t₁]
  have h₂ : step config { s with out := t₁ } (.out .writer) = some { s with out := t₂ } := by
    simp [step, allowsOut, Outgoing.step, Outgoing.writerStep, Outgoing.State.takes, hw, h.rxHeld,
      Outgoing.WriterPc.wakes, Outgoing.WriterPc.running, t₁, t₂]
  have h₃ : step config { s with out := t₂ } (.out .writer) = some { s with out := t₃ } := by
    simp [step, allowsOut, Outgoing.step, Outgoing.writerStep, Outgoing.State.takes, hw, h.queue,
      Outgoing.WriterPc.wakes, Outgoing.WriterPc.running, t₁, t₂, t₃]
  have h₄ : step config { s with out := t₃ } (.out .writer) =
      some { s with
        out := (t₃.wakeRing s.out.ringBuf).writerAt (.unwind none .aborted), waking := some p } := by
    simp [step, allowsOut, Outgoing.step, Outgoing.writerStep, htakes, hw,
      Outgoing.WriterPc.running, t₃]
  have hsafe : ∀ {u : Endpoint R A} {a : Outgoing.Act}, a ≠ .sender → Safe u (.out a) :=
    fun hne heq => absurd heq hne
  refine ⟨_, Machine.Path.tail (a := .out .writer) (Machine.Path.tail (a := .out .writer)
    (Machine.Path.tail (a := .out .writer) (Machine.Path.single (a := .out .abort) ?_ h₁) ?_ h₂) ?_ h₃)
    ?_ h₄, rfl, rfl⟩
  all_goals exact hsafe (by decide)

/-- `OnConnect` is delivered, and the user may start the connection with notifier 7. -/
theorem path_connect (R : RingBuffer UInt8) (config : ConnConfig) :
    ∃ c c' : Connection Nat,
      (machine R config Nat).Path Safe init ⟨c, Outgoing.makeSender, true, true, true, none⟩ ∧
      c.notifier = .noop ∧ c.step (.start (some 1) (some (.user 7))) = some c' ∧
      c'.notifier = .user 7 := by
  refine ⟨_, _, Machine.Path.tail (a := .inner .task) (Machine.Path.tail (a := .inner (.connected (1, 2)))
    (Machine.Path.single (a := .inner .connect) nofun rfl) nofun rfl) nofun rfl, rfl, rfl, rfl⟩

/-- Started first, then full, then the task is aborted: notifier 7, which the connection holds, is
    called. -/
theorem owned_iff_safe_waking : ∃ s : Endpoint (RingBuffer.circular UInt8) Nat,
    (machine _ ⟨0, 0, 0⟩ Nat).Path Safe init s ∧ s.waking = some (Notifier.user 7).addr ∧
    s.alive = true ∧ s.connection.notifier = .user 7 := by
  obtain ⟨c, c', hp, -, hstart, hn⟩ := path_connect (RingBuffer.circular UInt8) ⟨0, 0, 0⟩
  let s : Endpoint (RingBuffer.circular UInt8) Nat :=
    ⟨c', Outgoing.makeSender, true, true, true, none⟩
  have hp' : (machine _ ⟨0, 0, 0⟩ Nat).Path Safe init s := by
    refine hp.tail (a := .start (some 1) (some (.user 7))) (.inr (.inr rfl)) ?_
    exact congrArg (Option.map _) hstart
  obtain ⟨out, hpout, hqueued⟩ := path_registered (s := s) ⟨0, 0, 0⟩ rfl rfl
  obtain ⟨t, hpt, hwaking, hconn⟩ := path_waking (s := { s with out }) ⟨0, 0, 0⟩ hqueued rfl
  have hpath := (hp'.trans hpout).trans hpt
  have hnotifier : t.connection.notifier = .user 7 := by
    rw [hconn]; exact hn
  have haddr : s.connection.notifier.addr = (Notifier.user 7).addr := congrArg Notifier.addr hn
  have halive := (((owned_iff_safe _ _ _).1 t hpath).2.1 _ hwaking).1
  exact ⟨t, hpath, hwaking.trans (congrArg some haddr), halive, hnotifier⟩

/-- Full first, then started: `start` frees the notifier whose pointer is still registered. -/
theorem start_frees_registered : ∃ s s' : Endpoint (RingBuffer.circular UInt8) Nat,
    (machine _ ⟨0, 0, 0⟩ Nat).Reach s ∧
    s.step ⟨0, 0, 0⟩ (.start (some 1) (some (.user 7))) = some s' ∧
    Notifier.noop.addr ∈ s'.out.registered ∧ s'.connection.notifier = .user 7 ∧ ¬ s'.Owned := by
  obtain ⟨c, c', hp, hnoop, hstart, hn⟩ := path_connect (RingBuffer.circular UInt8) ⟨0, 0, 0⟩
  let s : Endpoint (RingBuffer.circular UInt8) Nat := ⟨c, Outgoing.makeSender, true, true, true, none⟩
  obtain ⟨out, hpout, hqueued⟩ := path_registered (s := s) ⟨0, 0, 0⟩ rfl rfl
  have hmem : Notifier.noop.addr ∈ out.registered := hnoop ▸ hqueued.registered
  refine ⟨{ s with out }, { s with out, connection := c' }, (hp.trans hpout).mono fun _ _ _ => trivial,
    congrArg (Option.map _) hstart, hmem, hn, ?_⟩
  intro howned
  have haddr : Notifier.noop.addr = c'.notifier.addr :=
    (howned _ (mem_callable.mpr (.inr hmem))).2
  rw [hn] at haddr
  cases haddr

end Endpoint

end SocketManager.Api
