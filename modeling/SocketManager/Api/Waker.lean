import SocketManager.Lib.Machine

/-! The C++ `Waker` (waker.cc). The runtime hands a waker over as two raw pointers with each call of
    `socket_manager_extern_on_msg` (on_msg.rs, socket_manager_c_api.cc), which wraps them in a
    temporary object; from there the user moves it where it likes.

        from_waker ──▶ Waker(waker) ── move ──▶ Waker ── ~Waker ──▶ socket_manager_waker_free
                       temporary                 └─ wake ──▶ socket_manager_waker_wake

    An object with a null pointer owns nothing. The objects live on a heap that the operations read and
    write as the special members do, so that the two operands of an assignment may be one object. The
    temporary of a call, and `drop_waker` in `MsgReceiver::on_message_async`, are destroyed by the end
    of the call, normal or by an exception, and by nothing else. -/

namespace SocketManager.Api

/-- A waker as two pointers. Two clones of one waker have the same pointers, so the struct also says
    with which call it was handed over; the code does not see that. -/
structure CWaker where
  data : Option Nat
  vtable : Option Nat
  handOver : Nat
  deriving DecidableEq

namespace CWaker

/-- `CWaker{nullptr, nullptr}`. -/
def null : CWaker := ⟨none, none, 0⟩

/-- `waker.Data != nullptr && waker.Vtable != nullptr`. -/
def nonNull (w : CWaker) : Bool := w.data.isSome && w.vtable.isSome

/-- `waker.Data = nullptr; waker.Vtable = nullptr`. -/
def nullOut (w : CWaker) : CWaker := { w with data := none, vtable := none }

end CWaker

/-- Who may do what with an object. -/
inductive Storage where
  /-- Made by the user, who destroys it. -/
  | user
  /-- The temporary passed to the `on_message_async` of the user, who may use it. -/
  | argument
  /-- Out of the user's reach. -/
  | internal
  deriving DecidableEq

/-- A `Waker` object. -/
structure WakerObject where
  storage : Storage
  waker : CWaker
  deriving DecidableEq

/-- Where a call of `socket_manager_extern_on_msg` is. -/
inductive OnMsgPc where
  /-- In the `on_message_async` of a `MsgReceiverAsync`. -/
  | onMessageAsync
  /-- In the `on_message` of a `MsgReceiver`. -/
  | onMessage
  /-- The waker is in `drop_waker`, at this address. -/
  | dropWaker (addr : Nat)
  deriving DecidableEq

/-- What the runtime is asked to do. -/
inductive WakerEvent where
  /-- `socket_manager_waker_wake` -/
  | woken (w : CWaker)
  /-- `socket_manager_waker_free` -/
  | freed (w : CWaker)
  deriving DecidableEq

/-- All the `Waker` objects. -/
structure Wakers where
  /-- The live objects by address. -/
  objects : Nat → Option WakerObject
  /-- The address of the next object. -/
  fresh : Nat
  /-- What was handed over so far. -/
  handed : List CWaker
  /-- The calls in progress, by the address of their temporary. -/
  calls : Nat → Option OnMsgPc
  log : List WakerEvent

/-- What happens next. -/
inductive WakerAct where
  /-- The runtime calls `on_msg` of a `MsgReceiverAsync`, or of a `MsgReceiver`. -/
  | onMsg (data vtable : Option Nat) (sync : Bool)
  /-- `on_message` returned; `Waker const drop_waker(std::move(waker))`. -/
  | onMessageReturned (tmp : Nat)
  /-- The call returns. -/
  | returns (tmp : Nat)
  /-- The user's function throws. -/
  | throws (tmp : Nat)
  /-- `Waker()` -/
  | default
  /-- `Waker(std::move(src))` -/
  | moveConstruct (src : Nat)
  /-- `dst = std::move(src)` -/
  | moveAssign (dst src : Nat)
  | wake (o : Nat)
  /-- `~Waker` -/
  | destroy (o : Nat)
  deriving DecidableEq

namespace Wakers

/-- A new object. -/
def construct (s : Wakers) (storage : Storage) (w : CWaker) : Wakers :=
  { s with objects := Function.update s.objects s.fresh (some ⟨storage, w⟩), fresh := s.fresh + 1 }

/-- Write the `waker` of an object. -/
def write (s : Wakers) (o : Nat) (w : CWaker) : Wakers :=
  { s with objects := Function.update s.objects o ((s.objects o).map fun x => { x with waker := w }) }

/-- `if (non-null) socket_manager_waker_free(waker)`. -/
def free (s : Wakers) (w : CWaker) : Wakers :=
  if w.nonNull then { s with log := s.log ++ [.freed w] } else s

/-- `Waker(Waker &&other) : waker(other.waker)`, then null out `other`. -/
def moveInit (s : Wakers) (storage : Storage) (src : Nat) (other : CWaker) : Wakers :=
  (s.construct storage other).write src other.nullOut

/-- `operator=(Waker &&other)`: free what is there, copy, null out `other`. -/
def assign (s : Wakers) (dst src : Nat) (waker other : CWaker) : Wakers :=
  ((s.free waker).write dst other).write src other.nullOut

/-- `~Waker`. -/
def destroy (s : Wakers) (o : Nat) : Wakers :=
  match s.objects o with
  | some x =>
    let s' := s.free x.waker
    { s' with objects := Function.update s'.objects o none }
  | none => s

/-- The end of a call of `socket_manager_extern_on_msg` destroys its temporary. -/
def endCall (s : Wakers) (tmp : Nat) : Wakers :=
  { s.destroy tmp with calls := Function.update s.calls tmp none }

/-- The `waker` of an object that the user can use. -/
def usable (s : Wakers) (o : Nat) : Option CWaker :=
  (s.objects o).bind fun x => if x.storage = .internal then none else some x.waker

/-- The runtime makes a `CWaker` from a waker of its own and calls `on_msg` with it. -/
def onMsg (s : Wakers) (data vtable : Option Nat) (sync : Bool) : Wakers :=
  let w : CWaker := ⟨data, vtable, s.handed.length⟩
  { s.construct (if sync then .internal else .argument) w with
    handed := s.handed ++ [w]
    calls := Function.update s.calls s.fresh (some (if sync then .onMessage else .onMessageAsync)) }

def step (s : Wakers) : WakerAct → Option Wakers
  | .onMsg data vtable sync => some (s.onMsg data vtable sync)
  | .onMessageReturned tmp =>
    match s.calls tmp, s.objects tmp with
    | some .onMessage, some x =>
      some { s.moveInit .internal tmp x.waker with
        calls := Function.update s.calls tmp (some (.dropWaker s.fresh)) }
    | _, _ => none
  | .returns tmp =>
    match s.calls tmp with
    | some .onMessageAsync => some (s.endCall tmp)
    | some (.dropWaker addr) => some ((s.destroy addr).endCall tmp)
    | _ => none
  | .throws tmp =>
    match s.calls tmp with
    | some .onMessageAsync | some .onMessage => some (s.endCall tmp)
    | _ => none
  | .default => some (s.construct .user .null)
  | .moveConstruct src => (s.usable src).map (s.moveInit .user src)
  | .moveAssign dst src =>
    (s.usable dst).bind fun waker => (s.usable src).map (s.assign dst src waker)
  | .wake o =>
    (s.usable o).map fun w => if w.nonNull then { s with log := s.log ++ [.woken w] } else s
  | .destroy o =>
    match s.objects o with
    | some x => if x.storage = .user then some (s.destroy o) else none
    | none => none

end Wakers

/-- The objects, from the start of the program. -/
def wakers : Machine Wakers WakerAct := ⟨⟨fun _ => none, 0, [], fun _ => none, []⟩, Wakers.step⟩

namespace Wakers
variable {s s' : Wakers} {o : Nat} {w : CWaker} {a : WakerAct}

/-! ### What a step does -/

theorem usable_cases (h : s.usable o = some w) : ∃ x, s.objects o = some x ∧ x.waker = w := by
  obtain ⟨x, hx, hw⟩ := Option.bind_eq_some_iff.mp h
  split at hw
  · cases hw
  · exact ⟨x, hx, Option.some.inj hw⟩

/-- The operations with the `waker`s they read. -/
inductive Move (s : Wakers) : Wakers → Prop where
  | onMsg (data vtable : Option Nat) (sync : Bool) : Move s (s.onMsg data vtable sync)
  | onMessageReturned {tmp : Nat} {x : WakerObject} (hpc : s.calls tmp = some .onMessage)
      (hx : s.objects tmp = some x) : Move s { s.moveInit .internal tmp x.waker with
        calls := Function.update s.calls tmp (some (.dropWaker s.fresh)) }
  /-- By return or by an exception. -/
  | endCall {tmp : Nat} {pc : OnMsgPc} (hpc : s.calls tmp = some pc)
      (hdrop : ∀ addr, pc ≠ .dropWaker addr) : Move s (s.endCall tmp)
  | dropWaker {tmp addr : Nat} (hpc : s.calls tmp = some (.dropWaker addr)) :
      Move s ((s.destroy addr).endCall tmp)
  | default : Move s (s.construct .user .null)
  | moveConstruct {src : Nat} {x : WakerObject} (hx : s.objects src = some x) :
      Move s (s.moveInit .user src x.waker)
  | moveAssign {dst src : Nat} {x y : WakerObject} (hx : s.objects dst = some x)
      (hy : s.objects src = some y) : Move s (s.assign dst src x.waker y.waker)
  | wake {o : Nat} {x : WakerObject} (hx : s.objects o = some x) (hn : x.waker.nonNull = true) :
      Move s { s with log := s.log ++ [.woken x.waker] }
  /-- A `wake` without a waker. -/
  | wakeNull : Move s s
  | destroy (o : Nat) : Move s (s.destroy o)

theorem step_cases (hs : s.step a = some s') : s.Move s' := by
  cases a with
  | onMsg data vtable sync =>
    obtain rfl := Option.some.inj hs
    exact .onMsg data vtable sync
  | onMessageReturned tmp =>
    rw [step] at hs
    split at hs
    · rename_i hpc hx
      obtain rfl := Option.some.inj hs
      exact .onMessageReturned hpc hx
    · cases hs
  | returns tmp =>
    rw [step] at hs
    split at hs
    · rename_i hpc
      obtain rfl := Option.some.inj hs
      exact .endCall hpc (by simp)
    · rename_i addr hpc
      obtain rfl := Option.some.inj hs
      exact .dropWaker hpc
    · cases hs
  | throws tmp =>
    rw [step] at hs
    split at hs
    · rename_i hpc
      obtain rfl := Option.some.inj hs
      exact .endCall hpc (by simp)
    · rename_i hpc
      obtain rfl := Option.some.inj hs
      exact .endCall hpc (by simp)
    · cases hs
  | default =>
    obtain rfl := Option.some.inj hs
    exact .default
  | moveConstruct src =>
    obtain ⟨w, hw, rfl⟩ := Option.map_eq_some_iff.mp hs
    obtain ⟨x, hx, rfl⟩ := usable_cases hw
    exact .moveConstruct hx
  | moveAssign dst src =>
    obtain ⟨w, hw, hs⟩ := Option.bind_eq_some_iff.mp hs
    obtain ⟨w', hw', rfl⟩ := Option.map_eq_some_iff.mp hs
    obtain ⟨x, hx, rfl⟩ := usable_cases hw
    obtain ⟨y, hy, rfl⟩ := usable_cases hw'
    exact .moveAssign hx hy
  | wake o =>
    obtain ⟨w, hw, rfl⟩ := Option.map_eq_some_iff.mp hs
    obtain ⟨x, hx, rfl⟩ := usable_cases hw
    split
    · rename_i hn
      exact .wake hx hn
    · exact .wakeNull
  | destroy o =>
    rw [step] at hs
    split at hs
    · split at hs
      · obtain rfl := Option.some.inj hs
        exact .destroy o
      · cases hs
    · cases hs

/-! ### What an operation leaves alone -/

@[simp] theorem free_objects (s : Wakers) (w : CWaker) : (s.free w).objects = s.objects := by
  rw [free]; split <;> rfl

@[simp] theorem free_fresh (s : Wakers) (w : CWaker) : (s.free w).fresh = s.fresh := by
  rw [free]; split <;> rfl

@[simp] theorem free_handed (s : Wakers) (w : CWaker) : (s.free w).handed = s.handed := by
  rw [free]; split <;> rfl

@[simp] theorem free_calls (s : Wakers) (w : CWaker) : (s.free w).calls = s.calls := by
  rw [free]; split <;> rfl

@[simp] theorem destroy_fresh (s : Wakers) (o : Nat) : (s.destroy o).fresh = s.fresh := by
  rw [destroy]; split <;> simp

@[simp] theorem destroy_handed (s : Wakers) (o : Nat) : (s.destroy o).handed = s.handed := by
  rw [destroy]; split <;> simp

@[simp] theorem destroy_calls (s : Wakers) (o : Nat) : (s.destroy o).calls = s.calls := by
  rw [destroy]; split <;> simp

/-- An object that is not there is not there after an operation on others. -/
theorem construct_objects (h : ∀ o, s.fresh ≤ o → s.objects o = none) (storage : Storage) (w : CWaker)
    (ho : s.fresh + 1 ≤ o) : (s.construct storage w).objects o = none :=
  (Function.update_of_ne (by omega) _ _).trans (h o (by omega))

theorem write_objects (h : s.objects o = none) (o' : Nat) (w : CWaker) :
    (s.write o' w).objects o = none := by
  rcases eq_or_ne o o' with rfl | hne
  · simp [write, h]
  · simpa [write, Function.update_of_ne hne] using h

theorem destroy_objects (h : s.objects o = none) (o' : Nat) : (s.destroy o').objects o = none := by
  rw [destroy]
  split
  · rcases eq_or_ne o o' with rfl | hne
    · simp
    · simpa [Function.update_of_ne hne] using h
  · exact h

end Wakers

end SocketManager.Api
