import SocketManager.Manager.ConnSteps
import SocketManager.Manager.Model

/-! What one step of the manager can do. `State.step_cases` lists its steps with the guard of each; the
    lemmas below and in the later modules look at a step from one side only (the connections, their
    registry, the listening tasks) and are read off that list.

    Seen from one connection, the manager is an environment that may drop its stopper: every run of
    the manager projects to a run of each connection (`path_conn`), so what was proved of a connection
    alone holds of every connection of the manager. What the manager adds is the registry, and
    `step_registry` lists the steps that access it. -/

namespace SocketManager.Manager
variable {A : Type} {s s' : State A} {a : Act A} {i : Nat}

/-! ### The steps of the manager -/

/-- A listening task goes on by itself. -/
def State.advance (s : State A) (t : Nat) (pc : ListenPc) : State A :=
  s.setListening t { s.listening t with pc }

theorem listenGoto_cases {t : Nat} {pc pc' : ListenPc} (h : s.listenGoto t pc pc' = some s') :
    (s.listening t).pc = pc ∧ s' = s.advance t pc' := by
  unfold State.listenGoto at h
  split at h
  · rename_i hp
    exact ⟨hp, (Option.some.inj h).symm⟩
  · cases h

section Cases
variable [DecidableEq A]

/-- What a step can do, with its guard. -/
inductive State.Move (s : State A) : Act A → State A → Prop where
  | connect {c} (hm : s.main = .running) (hc : (s.conns s.fresh).step .connect = some c) :
      Move s .connect (s.addConn c)
  | listen {addr} (hm : s.main = .running) : Move s (.listen addr) (s.listen addr)
  | cancelListen {addr} (hm : s.main = .running) : Move s (.cancelListen addr) (s.cancelListen addr)
  | abort (hm : s.main = .running) : Move s .abort s.clearListeners
  | clearConnections (hm : s.main = .stopAll) : Move s .clearConnections s.clearConnections
  | connected {i key c} (hfree : s.keyFree key = true)
      (hc : (s.conns i).step (.connected key) = some c) : Move s (.connected i key) (s.setConn i c)
  | bindOk {t} (hp : (s.listening t).pc = .binding) : Move s (.bindOk t) (s.advance t .insert)
  | bindFails {t} (hp : (s.listening t).pc = .binding) :
      Move s (.bindFails t) (s.advance t .inListenError)
  | listenErrorReturned {t} (hp : (s.listening t).pc = .inListenError) :
      Move s (.listenErrorReturned t) (s.advance t .failed)
  | insertListener {t addr} (hp : (s.listening t).pc = .insert)
      (ha : (s.listening t).addr = some addr) :
      Move s (.insertListener t) (s.insertListener t addr)
  | accept {t key c} (hp : (s.listening t).pc = .accepting false) (hfree : s.keyFree key = true)
      (hc : (s.conns s.fresh).step (.accept key) = some c) : Move s (.accept t key) (s.addConn c)
  | acceptNoAddr {t} (hp : (s.listening t).pc = .accepting false) :
      Move s (.acceptNoAddr t) (s.advance t (.accepting false))
  | acceptFails {t} (hp : (s.listening t).pc = .accepting false) :
      Move s (.acceptFails t) (s.advance t (.accepting true))
  | canceled {t disabled} (hp : (s.listening t).pc = .accepting disabled)
      (hc : (s.listening t).cancelDropped = true) : Move s (.canceled t) (s.advance t .done)
  | conn {i b c} (hown : b.own = true) (hc : (s.conns i).step b = some c) :
      Move s (.conn i b) ((s.setConn i c).access i (s.conns i).key ((s.conns i).regOp b))

theorem State.step_cases (h : s.step a = some s') : s.Move a s' := by
  cases a with
  | bindOk t => obtain ⟨hp, rfl⟩ := listenGoto_cases h; exact .bindOk hp
  | bindFails t => obtain ⟨hp, rfl⟩ := listenGoto_cases h; exact .bindFails hp
  | listenErrorReturned t => obtain ⟨hp, rfl⟩ := listenGoto_cases h; exact .listenErrorReturned hp
  | acceptNoAddr t => obtain ⟨hp, rfl⟩ := listenGoto_cases h; exact .acceptNoAddr hp
  | acceptFails t => obtain ⟨hp, rfl⟩ := listenGoto_cases h; exact .acceptFails hp
  | insertListener t =>
    simp only [step] at h
    split at h
    · rename_i hp ha
      obtain rfl := Option.some.inj h; exact .insertListener hp ha
    · cases h
  | canceled t =>
    simp only [step] at h
    split at h
    · rename_i hp
      split at h
      · rename_i hc
        obtain rfl := Option.some.inj h; exact .canceled hp hc
      · cases h
    · cases h
  | connect =>
    simp only [step, Option.ite_none_right_eq_some] at h
    obtain ⟨hm, h⟩ := h
    obtain ⟨c, hc, rfl⟩ := Option.map_eq_some_iff.mp h
    exact .connect hm hc
  | connected i key =>
    simp only [step, Option.ite_none_right_eq_some] at h
    obtain ⟨hfree, h⟩ := h
    obtain ⟨c, hc, rfl⟩ := Option.map_eq_some_iff.mp h
    exact .connected hfree hc
  | accept t key =>
    simp only [step, Option.ite_none_right_eq_some] at h
    obtain ⟨⟨hp, hfree⟩, h⟩ := h
    obtain ⟨c, hc, rfl⟩ := Option.map_eq_some_iff.mp h
    exact .accept hp hfree hc
  | conn i b =>
    simp only [step, Option.ite_none_right_eq_some] at h
    obtain ⟨hown, h⟩ := h
    obtain ⟨c, hc, rfl⟩ := Option.map_eq_some_iff.mp h
    exact .conn hown hc
  | listen addr =>
    simp only [step, Option.ite_none_right_eq_some] at h
    obtain ⟨hm, h⟩ := h
    obtain rfl := Option.some.inj h; exact .listen hm
  | cancelListen addr =>
    simp only [step, Option.ite_none_right_eq_some] at h
    obtain ⟨hm, h⟩ := h
    obtain rfl := Option.some.inj h; exact .cancelListen hm
  | abort =>
    simp only [step, Option.ite_none_right_eq_some] at h
    obtain ⟨hm, h⟩ := h
    obtain rfl := Option.some.inj h; exact .abort hm
  | clearConnections =>
    simp only [step, Option.ite_none_right_eq_some] at h
    obtain ⟨hm, h⟩ := h
    obtain rfl := Option.some.inj h; exact .clearConnections hm

end Cases

/-! ### Projection to one connection -/

section Projection
variable {ok : Conn A → ConnAct A → Prop}

/-- A guard on the steps of a connection that says nothing about its environment. -/
def Internal (ok : Conn A → ConnAct A → Prop) : Prop := ∀ c b, b.own = false → ok c b

/-- A guard on the steps of a connection, as one on the steps of the manager. -/
def Lift (ok : Conn A → ConnAct A → Prop) (s : State A) (a : Act A) : Prop :=
  ∀ i b, a = .conn i b → ok (s.conns i) b

instance {a : Act A} [∀ c b, Decidable (ok c b)] : Decidable (Lift ok s a) :=
  match a with
  | .conn i b => decidable_of_iff (ok (s.conns i) b)
      ⟨(fun h _ _ heq => by cases heq; exact h), fun h => h i b rfl⟩
  | .connect | .listen _ | .cancelListen _ | .abort | .clearConnections | .connected _ _ | .bindOk _
  | .bindFails _ | .listenErrorReturned _ | .insertListener _ | .accept _ _ | .acceptNoAddr _
  | .acceptFails _ | .canceled _ => .isTrue nofun

theorem Internal.dropStopper (hi : Internal ok) {c c' : Conn A}
    (hp : (Conn.machine A).Path ok c c') : (Conn.machine A).Path ok c c'.dropStopper :=
  Machine.Path.tail (a := .dropStopper) hp (hi _ _ rfl) rfl

/-- Only the connection that takes a step changes. -/
theorem path_update {c : Conn A} {b : ConnAct A} {j : Nat} (hok : ok (s.conns j) b)
    (hs : (s.conns j).step b = some c) :
    (Conn.machine A).Path ok (s.conns i) (Function.update s.conns j c i) := by
  rcases eq_or_ne i j with rfl | hij
  · rw [Function.update_self]
    exact .single hok hs
  · rw [Function.update_of_ne hij]
    exact .refl

variable [DecidableEq A]

theorem Internal.remove (hi : Internal ok) {c : Conn A} (key : A × A)
    (hp : (Conn.machine A).Path ok c (s.conns i)) :
    (Conn.machine A).Path ok c ((s.remove key).conns i) := by
  rw [State.remove_conns]
  split
  · exact hi.dropStopper hp
  · exact hp

theorem Internal.access (hi : Internal ok) {c : Conn A} {j : Nat} {key : Option (A × A)} {op : RegOp}
    (hp : (Conn.machine A).Path ok c (s.conns i)) :
    (Conn.machine A).Path ok c ((s.access j key op).conns i) := by
  unfold State.access
  split
  · exact hi.remove _ hp
  · exact hi.remove _ hp
  · exact hi.remove _ hp
  · exact hp

theorem conns_removeListener (addr : A) :
    (s.removeListener addr).conns = s.conns ∧ (s.removeListener addr).connections = s.connections ∧
      (s.removeListener addr).stopAllRan = s.stopAllRan ∧
      (s.removeListener addr).removedOther = s.removedOther := by
  unfold State.removeListener
  split <;> exact ⟨rfl, rfl, rfl, rfl⟩

end Projection

/-! ### The steps that access the registry -/

/-- The three steps of a connection that access the registry. -/
inductive Access (c : Conn A) : ConnAct A → RegOp → Conn A → Prop where
  | insert (hp : c.pc = .insert) : Access c .task .insert (c.goto (.join false false))
  | cleanup (hp : c.pc = .remove) : Access c .task .cleanup (c.goto .closing)
  | close {n late} (hc : c.calls[n]? = some (.closeRemove late)) :
      Access c (.user n) .close ({ c with calls := c.calls.eraseIdx n }.event (.closeReturned late))

theorem access_cases {c c' : Conn A} {b : ConnAct A} (h : c.step b = some c')
    (hop : c.regOp b ≠ .none) : Access c b (c.regOp b) c' := by
  unfold Conn.regOp at hop ⊢
  split at hop
  · split at hop
    · rename_i hp
      simp only [Conn.step, Conn.taskStep, hp, Option.some.injEq] at h ⊢
      subst h; exact .insert hp
    · rename_i hp
      simp only [Conn.step, Conn.taskStep, hp, Option.some.injEq] at h ⊢
      subst h; exact .cleanup hp
    · exact absurd rfl hop
  · split at hop
    · rename_i hc
      simp only [Conn.step, Conn.user, hc, Option.some.injEq] at h ⊢
      subst h; exact .close hc
    · exact absurd rfl hop
  · exact absurd rfl hop

variable [DecidableEq A]

/-- What a step does to the connections and their registry. -/
inductive RegistryStep (s : State A) : Act A → State A → Prop where
  /-- Neither is touched. -/
  | other {a : Act A} {s' : State A} (ha : ∀ i b, a ≠ .conn i b) (hc : s'.conns = s.conns)
      (hk : s'.connections = s.connections) (hst : s.stopAllRan = true → s'.stopAllRan = true)
      (hro : s'.removedOther = s.removedOther) : RegistryStep s a s'
  /-- One connection takes a step without an access to the registry. -/
  | conn {a : Act A} {s' : State A} (i : Nat) (b : ConnAct A) (c : Conn A)
      (hs : (s.conns i).step b = some c) (hop : (s.conns i).regOp b = .none)
      (henv : b ≠ .dropStopper) (ha : a = .conn i b ∨ b.own = false ∧ ∀ j b', a ≠ .conn j b')
      (hc : s'.conns = Function.update s.conns i c)
      (hk : s'.connections = s.connections) (hst : s'.stopAllRan = s.stopAllRan)
      (hro : s'.removedOther = s.removedOther) : RegistryStep s a s'
  /-- One connection takes a step with an access to the registry. -/
  | access (i : Nat) (b : ConnAct A) (c : Conn A) (hs : (s.conns i).step b = some c)
      (hop : (s.conns i).regOp b ≠ .none) (hown : b.own = true) :
      RegistryStep s (.conn i b)
        ((s.setConn i c).access i (s.conns i).key ((s.conns i).regOp b))
  | clear (hm : s.main = .stopAll) : RegistryStep s .clearConnections s.clearConnections

theorem step_registry (h : s.step a = some s') : RegistryStep s a s' := by
  cases State.step_cases h with
  | connect _ hc =>
    exact .conn s.fresh .connect _ hc rfl (by simp) (.inr ⟨rfl, by simp⟩) rfl rfl rfl rfl
  | @connected i key c _ hc =>
    exact .conn i (.connected key) c hc rfl (by simp) (.inr ⟨rfl, by simp⟩) rfl rfl rfl rfl
  | @accept t key c _ _ hc =>
    exact .conn s.fresh (.accept key) c hc rfl (by simp) (.inr ⟨rfl, by simp⟩) rfl rfl rfl rfl
  | @cancelListen addr | @insertListener _ addr =>
    obtain ⟨hc, hk, hst, hro⟩ := conns_removeListener (s := s) addr
    exact .other (by simp) hc hk (fun hs => hst.trans hs) hro
  | abort => exact .other (by simp) rfl rfl (fun _ => rfl) rfl
  | clearConnections hm => exact .clear hm
  | listen | bindOk | bindFails | listenErrorReturned | acceptNoAddr | acceptFails | canceled =>
    exact .other (by simp) rfl rfl id rfl
  | @conn i b c hown hc =>
    by_cases hop : (s.conns i).regOp b = .none
    · have hacc : (s.setConn i c).access i (s.conns i).key ((s.conns i).regOp b) = s.setConn i c := by
        rw [hop]; rfl
      rw [hacc]
      exact .conn i b c hc hop (by rintro rfl; cases hown) (.inl rfl) rfl rfl rfl rfl
    · exact .access i b c hc hop hown

theorem step_conn {b : ConnAct A} (h : s.step (.conn i b) = some s') :
    b.own = true ∧ s.connStep i b = some s' := by
  simp only [State.step] at h
  split at h
  · rename_i hown
    exact ⟨hown, h⟩
  · cases h

/-- A step of a connection without an access to the registry changes this connection only. -/
theorem step_conn_of_no_access {b : ConnAct A} (hop : (s.conns i).regOp b = .none)
    (h : s.step (.conn i b) = some s') : ∃ c, (s.conns i).step b = some c ∧ s' = s.setConn i c := by
  obtain ⟨-, h⟩ := step_conn h
  obtain ⟨c, hc, rfl⟩ := Option.map_eq_some_iff.mp h
  rw [hop]
  exact ⟨c, hc, rfl⟩

/-- One step of the manager is, for each connection, at most a step of its own and then the loss of
    its stopper. -/
theorem path_conn_step {ok : Conn A → ConnAct A → Prop} (hi : Internal ok) (hok : Lift ok s a)
    (h : s.step a = some s') (i : Nat) : (Conn.machine A).Path ok (s.conns i) (s'.conns i) := by
  cases step_registry h with
  | other _ hc => rw [hc]; exact .refl
  | conn j b c hs _ _ ha hc =>
    rw [hc]
    refine path_update ?_ hs
    rcases ha with rfl | ⟨hown, -⟩
    · exact hok j b rfl
    · exact hi _ _ hown
  | access j b c hs _ _ => exact hi.access (path_update (hok j b rfl) hs)
  | clear _ =>
    rw [State.clearConnections_conns]
    split
    · exact hi.dropStopper .refl
    · exact .refl

/-- Every run of the manager projects to a run of each connection. -/
theorem path_conn {ok : Conn A → ConnAct A → Prop} (hi : Internal ok)
    (hp : (machine A).Path (Lift ok) s s') (i : Nat) :
    (Conn.machine A).Path ok (s.conns i) (s'.conns i) :=
  Machine.Path.project (f := fun s : State A => s.conns i) hp fun _ _ _ hok hs =>
    path_conn_step hi hok hs i

/-- Without a guard, too. -/
theorem path_conn_any {ok : State A → Act A → Prop} (hp : (machine A).Path ok s s') (i : Nat) :
    (Conn.machine A).Path (fun _ _ => True) (s.conns i) (s'.conns i) := by
  have hi : Internal fun (_ : Conn A) _ => True := fun _ _ _ => trivial
  exact path_conn hi (hp.mono fun _ _ _ _ _ _ => trivial) i

/-- Each connection of a reachable manager is in a reachable state. -/
theorem reach_conn (hr : (machine A).Reach s) (i : Nat) : (Conn.machine A).Reach (s.conns i) :=
  path_conn_any hr i

end SocketManager.Manager
