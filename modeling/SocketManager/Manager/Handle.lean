import SocketManager.Manager.Close

/-! The `Conn` in the hands of its user. While nobody has won the exchange of `consumed`, `inner` is
    there for the one who does (`HandleInv`); so `start_connection`, called by itself and run to its
    end, has three outcomes:

        consumed              refused, nothing is sent
        config receiver gone  an error, and the connection is consumed
        otherwise             the config is sent -/

namespace SocketManager.Manager
variable {A : Type} {c c' : Conn A} {b : ConnAct A}

/-! ### Who may take `inner` -/

/-- The call is about to take `inner`. -/
def Call.takes : Call → Bool
  | .startTake | .closeTake _ => true
  | .closeRemove _ => false

/-- `OnConnect` was not delivered yet. -/
def Pc.beforeConnect : Pc → Bool
  | .unborn | .connecting | .inConnectError | .failed | .onConnect => true
  | _ => false

/-- Whoever wins the exchange finds `inner`. -/
structure HandleInv (c : Conn A) : Prop where
  before : c.pc.beforeConnect = true → c.handle = false ∧ c.consumed = false ∧ c.calls = []
  made : c.pc = .onConnect → c.inner = true
  free : c.consumed = false →
    (c.handle = true → c.inner = true) ∧ ∀ call ∈ c.calls, call.takes = false

theorem HandleInv.task (h : HandleInv c) (hm : c.TaskStep b c') : HandleInv c' := by
  have hbefore := h.before
  have hmade := h.made
  cases hm with
  | connect hp | connectFails hp | errorReturned hp =>
    rw [hp] at hbefore
    exact ⟨fun _ => hbefore rfl, nofun, h.free⟩
  | connected key hp | accept key hp =>
    rw [hp] at hbefore
    exact ⟨fun _ => hbefore rfl, fun _ => rfl, fun hc => ⟨fun _ => rfl, (h.free hc).2⟩⟩
  | onConnect hp => exact ⟨nofun, nofun, fun hc => ⟨fun _ => hmade hp, (h.free hc).2⟩⟩
  | _ => exact ⟨nofun, nofun, h.free⟩

theorem HandleInv.late (hp : ¬ c.pc.beforeConnect = true)
    (hfree : c.consumed = false →
      (c.handle = true → c.inner = true) ∧ ∀ call ∈ c.calls, call.takes = false) : HandleInv c := by
  refine ⟨fun h => absurd h hp, fun h => ?_, hfree⟩
  rw [h] at hp; exact absurd rfl hp

theorem HandleInv.late_of_handle (h : HandleInv c) (hu : c.handle = true) :
    ¬ c.pc.beforeConnect = true := by
  intro hp
  rw [(h.before hp).1] at hu; cases hu

theorem HandleInv.late_of_call (h : HandleInv c) {i : Nat} {call : Call}
    (hc : c.calls[i]? = some call) : ¬ c.pc.beforeConnect = true := by
  intro hp
  rw [(h.before hp).2.2] at hc; cases hc

/-- A call that takes `inner` has won the exchange. -/
theorem HandleInv.consumed_of_takes (h : HandleInv c) {i : Nat} {call : Call}
    (hc : c.calls[i]? = some call) (ht : call.takes = true) : c.consumed = true := by
  by_contra hf
  have := (h.free (by simpa using hf)).2 call (List.mem_of_getElem? hc)
  rw [ht] at this; cases this

theorem HandleInv.user (h : HandleInv c) (hm : c.UserStep b c') : HandleInv c' := by
  cases hm with
  | start hu hc | close hu hc => exact .late (h.late_of_handle hu) nofun
  | startRefused hu hc => exact .late (h.late_of_handle hu) h.free
  | closeConsumed hu hc =>
    refine .late (h.late_of_handle hu) fun hf => ?_
    rw [hc] at hf; cases hf
  | startOk hc | startErr hc | closeTake hc =>
    refine .late (h.late_of_call hc) fun hf => ?_
    rw [h.consumed_of_takes hc rfl] at hf; cases hf
  | unwrapFails hc | closeReturned hc =>
    refine .late (h.late_of_call hc) fun hf => ⟨(h.free hf).1, fun call hmem => ?_⟩
    exact (h.free hf).2 call (List.mem_of_mem_eraseIdx hmem)
  | dropHandle hu hc => exact .late (h.late_of_handle hu) fun hf => ⟨nofun, (h.free hf).2⟩
  | dropStopper => exact ⟨h.before, h.made, h.free⟩

theorem HandleInv.move (h : HandleInv c) (hm : c.Move b c') : HandleInv c' := by
  cases hm with
  | task hm => exact h.task hm
  | user hm => exact h.user hm
  | msg _ | reader _ | writer _ => exact ⟨h.before, h.made, h.free⟩

/-- `consumed` is never reset. -/
theorem Conn.Move.consumed (hm : c.Move b c') (hc : c.consumed = true) : c'.consumed = true := by
  cases hm with
  | task hm => cases hm <;> exact hc
  | user hm =>
    cases hm with
    | start | close => rfl
    | _ => exact hc
  | msg _ | reader _ | writer _ => exact hc

theorem reach_handleInv (hr : (Conn.machine A).Reach c) : HandleInv c := by
  refine hr.invariant ⟨fun _ => ⟨rfl, rfl, rfl⟩, nofun, fun _ => ⟨nofun, nofun⟩⟩ ?_
  intro _ _ _ h hs
  exact h.move (Conn.step_cases hs)

/-! ### `start_connection` by itself -/

/-- `start_connection` run to its end; `none` when the `Conn` is gone, or when `inner` is and the call
    panics. -/
def Conn.startConnection (c : Conn A) : Option (Except String Unit × Conn A) :=
  c.start.bind fun c₁ =>
    if c.consumed then some (.error "calling `start_connection` after connection consumed", c₁)
    else if c.inner then
      (c₁.user c.calls.length).map fun c₂ =>
        (if c.configRx then .ok () else .error "callback config setter send failed", c₂)
    else none

/-- It is two steps of the connection, or one. -/
theorem startConnection_path {res : Except String Unit}
    (h : c.startConnection = some (res, c')) : (Conn.machine A).Path (fun _ _ => True) c c' := by
  obtain ⟨c₁, hstart, h⟩ := Option.bind_eq_some_iff.mp h
  have hfirst : (Conn.machine A).Path (fun _ _ => True) c c₁ := .single (a := .start) trivial hstart
  split at h
  · cases h; exact hfirst
  · split at h
    · obtain ⟨c₂, huser, heq⟩ := Option.map_eq_some_iff.mp h
      cases heq
      exact hfirst.tail (a := .user c.calls.length) trivial huser
    · cases h

theorem startConnection_consumed (hu : c.handle = true) (hc : c.consumed = true) :
    c.startConnection =
      some (.error "calling `start_connection` after connection consumed", c.event .startErr) := by
  simp [Conn.startConnection, Conn.start, hu, hc]

/-- Whoever wins the exchange sends the config, if its receiver is still there. -/
theorem startConnection_free (h : HandleInv c) (hu : c.handle = true) (hc : c.consumed = false) :
    ∃ c', c'.consumed = true ∧ c.startConnection =
      some (if c.configRx then .ok () else .error "callback config setter send failed", c') := by
  have hi := (h.free hc).1 hu
  cases hrx : c.configRx <;>
    simp [Conn.startConnection, Conn.start, Conn.user, Conn.startTake, hu, hc, hi, hrx]

/-- It succeeds if and only if the connection is not consumed and waits for its config. -/
theorem startConnection_cases (h : HandleInv c) (hu : c.handle = true) :
    ∃ res c', c.startConnection = some (res, c') ∧ c'.consumed = true ∧
      (res = .ok () ∧ c.consumed = false ∧ c.configRx = true ∨
        (∃ e, res = .error e) ∧ ¬ (c.consumed = false ∧ c.configRx = true)) := by
  cases hc : c.consumed with
  | true =>
    exact ⟨_, _, startConnection_consumed hu hc, hc, .inr ⟨⟨_, rfl⟩, by simp⟩⟩
  | false =>
    obtain ⟨c', hc', hstart⟩ := startConnection_free h hu hc
    refine ⟨_, c', hstart, hc', ?_⟩
    cases hrx : c.configRx with
    | true => exact .inl ⟨rfl, rfl, rfl⟩
    | false => exact .inr ⟨⟨_, rfl⟩, by simp⟩

end SocketManager.Manager
