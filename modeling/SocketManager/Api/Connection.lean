import SocketManager.Manager.Handle

/-! The `Connection` object (connection.cc). It owns the receiver and the notifier that the runtime
    knows by raw pointers only, and `start` puts them into its fields before it asks the Rust side:

        start(r)    receiver := r ── start_connection ── Ok      the runtime holds r
        start(r')   receiver := r' ── start_connection ── Err    the runtime still holds r

    A call of `start` is one step here. The steps of the Rust side come in between, in the order and
    number they like: the connection task, its callbacks, the calls of `close`, in any environment. -/

namespace SocketManager.Api
open Manager

/-- A `Notifier` object: the one made by the constructor, or one of the user's. -/
inductive Notifier where
  | noop
  | user (n : Nat)
  deriving DecidableEq

variable (A : Type)

/-- The C++ object over the `Conn` it owns. -/
structure Connection where
  inner : Conn A
  /-- The receiver it keeps alive. -/
  receiver : Option Nat
  /-- The notifier it keeps alive. -/
  notifier : Notifier
  /-- The receiver in the `OnMsgObj` that was sent to the runtime. -/
  given : Option Nat
  deriving DecidableEq

/-- What happens to it. -/
inductive Connection.Act where
  /-- `start(msg_receiver, send_notifier)`, with null as `none`. -/
  | start (msgReceiver : Option Nat) (sendNotifier : Option Notifier)
  /-- The Rust side takes a step. -/
  | inner (b : ConnAct A)
  deriving DecidableEq

variable {A}

namespace Connection

/-- `Connection::start`; an error is what it throws. -/
def start (s : Connection A) (msgReceiver : Option Nat) (sendNotifier : Option Notifier) :
    Option (Except String Unit × Connection A) :=
  match msgReceiver with
  | none => some (.error "msg_receiver should not be nullptr", s)
  | some receiver =>
    s.inner.startConnection.map fun (res, inner) =>
      (res, { inner, receiver := some receiver, notifier := sendNotifier.getD s.notifier,
              given := match res with
                | .ok _ => some receiver
                | .error _ => s.given })

/-- The object is there from `OnConnect` until it is destroyed. -/
def step (s : Connection A) : Act A → Option (Connection A)
  | .start msgReceiver sendNotifier =>
    if s.inner.handle then (s.start msgReceiver sendNotifier).map Prod.snd else none
  | .inner b => if b matches .start then none else (s.inner.step b).map fun inner => { s with inner }

def init : Connection A := ⟨Conn.unborn, none, .noop, none⟩

def machine (A : Type) : Machine (Connection A) (Act A) := ⟨init, step⟩

/-! ### A start that throws -/

/-- A `start` that throws leaves what the object holds as it was. -/
def Keeps (s : Connection A) (msgReceiver : Option Nat) (sendNotifier : Option Notifier) : Prop :=
  ∀ e s', s.start msgReceiver sendNotifier = some (.error e, s') →
    s'.receiver = s.receiver ∧ s'.notifier = s.notifier

/-- The receiver is null, or the call can succeed, or it brings what the object already holds. -/
def Harmless (s : Connection A) (msgReceiver : Option Nat) (sendNotifier : Option Notifier) : Prop :=
  msgReceiver = none ∨ (s.inner.consumed = false ∧ s.inner.configRx = true) ∨
    (msgReceiver = s.receiver ∧ sendNotifier.getD s.notifier = s.notifier)

/-- Every `start` of a run is harmless. -/
def HarmlessAct (s : Connection A) : Act A → Prop
  | .start msgReceiver sendNotifier => s.Harmless msgReceiver sendNotifier
  | .inner _ => True

instance {s : Connection A} {r : Option Nat} {n : Option Notifier} : Decidable (s.Harmless r n) :=
  inferInstanceAs (Decidable (_ ∨ _ ∨ _))

instance {s : Connection A} : ∀ a, Decidable (s.HarmlessAct a)
  | .start r n => inferInstanceAs (Decidable (s.Harmless r n))
  | .inner _ => .isTrue trivial

variable {s s' : Connection A} {a : Act A}

/-- What `start` does with receiver `r`: the fields are set whether it succeeds or not. -/
structure Started (s : Connection A) (r : Nat) (n : Option Notifier) (res : Except String Unit)
    (s' : Connection A) : Prop where
  receiver : s'.receiver = some r
  notifier : s'.notifier = n.getD s.notifier
  consumed : s'.inner.consumed = true
  result : res = .ok () ∧ s'.given = some r ∧ s.inner.consumed = false ∧ s.inner.configRx = true ∨
    (∃ e, res = .error e) ∧ s'.given = s.given ∧
      ¬ (s.inner.consumed = false ∧ s.inner.configRx = true)

theorem start_some (h : HandleInv s.inner) (hu : s.inner.handle = true) (r : Nat)
    (n : Option Notifier) :
    ∃ res s', s.start (some r) n = some (res, s') ∧ s.Started r n res s' := by
  obtain ⟨res, inner, hstart, hcons, hres⟩ := startConnection_cases h hu
  simp only [start, hstart, Option.map_some, Option.some.injEq, Prod.mk.injEq]
  refine ⟨res, _, ⟨rfl, rfl⟩, rfl, rfl, hcons, ?_⟩
  rcases hres with ⟨rfl, hok⟩ | ⟨⟨e, rfl⟩, hno⟩
  · exact .inl ⟨rfl, rfl, hok⟩
  · exact .inr ⟨⟨e, rfl⟩, rfl, hno⟩

theorem step_path (hs : s.step a = some s') :
    (Conn.machine A).Path (fun _ _ => True) s.inner s'.inner := by
  cases a with
  | start r n =>
    simp only [step] at hs
    split at hs
    · obtain ⟨⟨res, t⟩, hstart, rfl⟩ := Option.map_eq_some_iff.mp hs
      cases r with
      | none => cases hstart; exact .refl
      | some r =>
        obtain ⟨⟨res', inner⟩, hinner, heq⟩ := Option.map_eq_some_iff.mp hstart
        cases heq
        exact startConnection_path hinner
    · cases hs
  | inner b =>
    simp only [step] at hs
    split at hs
    · cases hs
    · obtain ⟨inner, hinner, rfl⟩ := Option.map_eq_some_iff.mp hs
      exact .single (a := b) trivial hinner

theorem reach_inner (hr : (machine A).Reach s) : (Conn.machine A).Reach s.inner :=
  Machine.Path.project (f := Connection.inner) hr fun _ _ _ _ hs => step_path hs

theorem keeps_iff (h : HandleInv s.inner) (hu : s.inner.handle = true) (r : Option Nat)
    (n : Option Notifier) : s.Keeps r n ↔ s.Harmless r n := by
  cases r with
  | none =>
    refine iff_of_true ?_ (.inl rfl)
    rintro e s' ⟨⟩
    exact ⟨rfl, rfl⟩
  | some receiver =>
    obtain ⟨res, s', hstart, hst⟩ := start_some h hu receiver n
    rcases hst.result with ⟨rfl, -, hok⟩ | ⟨⟨e, rfl⟩, -, hno⟩
    · refine iff_of_true ?_ (.inr (.inl hok))
      intro e t ht
      rw [hstart] at ht; cases ht
    · constructor
      · intro hk
        obtain ⟨hrec, hnot⟩ := hk e s' hstart
        exact .inr (.inr ⟨hst.receiver ▸ hrec, hst.notifier ▸ hnot⟩)
      · rintro (hnull | hok | ⟨hrec, hnot⟩)
        · cases hnull
        · exact absurd hok hno
        · intro e' t ht
          rw [hstart] at ht; cases ht
          exact ⟨hst.receiver.trans hrec, hst.notifier.trans hnot⟩

/-! ### The receiver that the runtime knows -/

/-- The object holds the receiver that it gave to the runtime. -/
def Alive (s : Connection A) : Prop :=
  s.given ≠ none → s.receiver = s.given ∧ s.inner.consumed = true

theorem Alive.step (h : s.Alive) (hr : (machine A).Reach s) (hok : s.HarmlessAct a)
    (hs : s.step a = some s') : s'.Alive := by
  cases a with
  | start r n =>
    simp only [Connection.step] at hs
    split at hs
    · rename_i hu
      obtain ⟨⟨res, t⟩, hstart, rfl⟩ := Option.map_eq_some_iff.mp hs
      cases r with
      | none => cases hstart; exact h
      | some r =>
        obtain ⟨res', t', hstart', hst⟩ := start_some (reach_handleInv (reach_inner hr)) hu r n
        rw [hstart'] at hstart
        cases hstart
        intro hgiven
        refine ⟨?_, hst.consumed⟩
        rw [hst.receiver]
        rcases hst.result with ⟨-, hg, -⟩ | ⟨-, hg, hno⟩
        · exact hg.symm
        · rw [hg] at hgiven ⊢
          rcases hok with hnull | hcan | ⟨hrec, -⟩
          · cases hnull
          · exact absurd hcan hno
          · exact hrec.trans (h hgiven).1
    · cases hs
  | inner b =>
    simp only [Connection.step] at hs
    split at hs
    · cases hs
    · obtain ⟨inner, hinner, rfl⟩ := Option.map_eq_some_iff.mp hs
      intro hgiven
      exact ⟨(h hgiven).1, (Conn.step_cases hinner).consumed (h hgiven).2⟩

/-- `start` always returns or throws; when it throws it leaves what the object holds as it was if and
    only if the receiver is null, or the call brings what is held already (or it does not throw); and
    in a run of such calls the object holds the receiver that was given to the runtime. -/
theorem start_keeps_iff (A : Type) :
    (∀ s : Connection A, (machine A).Reach s → s.inner.handle = true → ∀ r n,
      s.start r n ≠ none ∧ (s.Keeps r n ↔ s.Harmless r n)) ∧
    (∀ s : Connection A, (machine A).Path HarmlessAct init s →
      s.given ≠ none → s.receiver = s.given) := by
  refine ⟨fun s hr hu r n => ?_, fun s hp hgiven => ?_⟩
  · have h := reach_handleInv (reach_inner hr)
    refine ⟨?_, keeps_iff h hu r n⟩
    cases r with
    | none => simp [start]
    | some r =>
      obtain ⟨res, s', hstart, -⟩ := start_some h hu r n
      rw [hstart]; simp
  · have halive : s.Alive := Machine.Path.invariant_of_reach hp nofun
      fun _ _ _ hr hok h hs => h.step hr hok hs
    exact (halive hgiven).1

/-- `OnConnect` is delivered and receiver 1 is started. -/
def startOne : List (Act Nat) :=
  [.inner .connect, .inner (.connected (1, 2)), .inner .task, .start (some 1) (some (.user 7))]

/-- A null receiver, or the same receiver again: the call throws and changes nothing. -/
theorem start_keeps_iff_again : ∃ s : Connection Nat, (machine Nat).Path HarmlessAct init s ∧
    s.inner.handle = true ∧ s.given = some 1 ∧ s.receiver = some 1 ∧ s.Keeps (some 1) none := by
  obtain ⟨s, hp, hs⟩ := (machine Nat).path_of_guarded_run HarmlessAct
    (startOne ++ [.start none none, .start (some 1) none])
    (fun s => decide (s.inner.handle = true ∧ s.given = some 1 ∧ s.Harmless (some 1) none))
    (by decide +kernel)
  obtain ⟨hu, hgiven, hok⟩ := of_decide_eq_true hs
  have hr : (machine Nat).Reach s := hp.mono fun _ _ _ => trivial
  have hrec := (start_keeps_iff Nat).2 s hp (by rw [hgiven]; simp)
  exact ⟨s, hp, hu, hgiven, hrec.trans hgiven, (((start_keeps_iff Nat).1 s hr hu _ _).2).mpr hok⟩

/-- The second `start` throws, and the receiver that the runtime calls is no longer held. -/
theorem start_throws_and_replaces : ∃ s s' : Connection Nat, (machine Nat).Reach s ∧
    s.inner.handle = true ∧ s.given = some 1 ∧ s.receiver = some 1 ∧ s.notifier = .user 7 ∧
    s.start (some 2) (some (.user 8)) =
      some (.error "calling `start_connection` after connection consumed", s') ∧
    s'.given = some 1 ∧ s'.receiver = some 2 ∧ s'.notifier = .user 8 := by
  obtain ⟨s, hr, hs⟩ := (machine Nat).reach_of_run startOne
    (fun s => decide (s.inner.handle = true ∧ s.inner.consumed = true ∧ s.given = some 1 ∧
      s.receiver = some 1 ∧ s.notifier = .user 7)) (by decide +kernel)
  obtain ⟨hu, hc, hgiven, hrec, hnot⟩ := of_decide_eq_true hs
  refine ⟨s, { s with inner := s.inner.event .startErr, receiver := some 2, notifier := .user 8 }, hr,
    hu, hgiven, hrec, hnot, ?_, hgiven, rfl, rfl⟩
  simp only [start, startConnection_consumed hu hc, Option.map_some, Option.getD_some]

end Connection

end SocketManager.Api
