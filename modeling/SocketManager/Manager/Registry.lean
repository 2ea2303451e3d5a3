import SocketManager.Manager.Events

/-! The registry of stoppers. An entry belongs to a connection that is past its insert and has the
    entry's key (`RegInv`); but the registry is keyed by addresses, not by connections, and a new
    connection may have the addresses of an old one whose two halves have ended:

        connection 0    insert ── halves end ──────────────────── remove
        connection 1                            insert ──────────────────── stop.closed()

    so an access to it can meet the stopper of another connection. -/

namespace SocketManager.Manager
variable {A : Type} {c c' : Conn A} {b : ConnAct A}

/-! ### The connection's side -/

/-- The insert is behind the connection task, or will not come. -/
def Pc.pastInsert : Pc → Bool
  | .join _ _ | .inRemoteClose _ | .remove | .closing | .inClose | .done | .panicked => true
  | _ => false

/-- In `join_reader_writer`: the sender of the stop signal is alive. -/
def Pc.joining : Pc → Bool
  | .join _ _ | .inRemoteClose _ => true
  | _ => false

theorem Conn.Move.pastInsert (h : c.Move b c') (hp : c.pc.pastInsert = true) :
    c'.pc.pastInsert = true ∧ c'.key = c.key := by
  cases h with
  | task h =>
    cases h with
    | connect hpc | connected key hpc | accept key hpc | connectFails hpc | onConnect hpc
    | configured hpc | unconfigured hpc | spawnWriter hpc | spawnReader hpc | insert hpc
    | errorReturned hpc | connectOk hpc | connectErr hpc => rw [hpc] at hp; cases hp
    | _ => exact ⟨rfl, rfl⟩
  | user h => cases h <;> exact ⟨hp, rfl⟩
  | msg _ | reader _ | writer _ => exact ⟨hp, rfl⟩

theorem Conn.Move.stopDropped (h : c.Move b c') (hb : b ≠ .dropStopper) :
    c'.stopDropped = c.stopDropped := by
  cases h with
  | task h => cases h <;> rfl
  | user h =>
    cases h with
    | dropStopper => exact absurd rfl hb
    | _ => rfl
  | msg _ | reader _ | writer _ => rfl

/-- The join loop is entered through the insert. -/
theorem Conn.Move.joining (h : c.Move b c') (hj : c'.pc.joining = true) :
    c.pc.joining = true ∨ c.pc = .insert ∧ b = .task := by
  cases h with
  | task h =>
    cases h with
    | insert hp => exact .inr ⟨hp, rfl⟩
    | remoteReturned hp | writerOk hp | readerOk hp => exact .inl (by rw [hp]; rfl)
    | _ => cases hj
  | user h => cases h <;> exact .inl hj
  | msg _ | reader _ | writer _ => exact .inl hj

/-- What a call in progress says about the history. -/
def Call.Ok (log : List Event) : Call → Prop
  | .startTake => True
  | .closeTake late | .closeRemove late =>
    .closeCalled ∈ log ∧ (late = true → .connectReturned true ∈ log ∧ .startOk ∈ log)

theorem Call.Ok.mono {log log' : List Event} {call : Call} (h : call.Ok log) (hl : log <+: log') :
    call.Ok log' := by
  cases call with
  | startTake => trivial
  | closeTake late | closeRemove late =>
    exact ⟨hl.subset h.1, fun hlate => ⟨hl.subset (h.2 hlate).1, hl.subset (h.2 hlate).2⟩⟩

theorem Conn.closeCall_ok (c : Conn A) : .closeCalled ∈ c.log ++ [Event.closeCalled] ∧
    (c.started = true → .connectReturned true ∈ c.log ++ [Event.closeCalled] ∧
      .startOk ∈ c.log ++ [Event.closeCalled]) := by
  refine ⟨List.mem_append_right _ List.mem_cons_self, fun hs => ?_⟩
  obtain ⟨hret, hstart⟩ := of_decide_eq_true hs
  exact ⟨List.mem_append_left _ hret, List.mem_append_left _ hstart⟩

/-- Every close in progress was called. -/
def Conn.CallsOk (c : Conn A) : Prop := ∀ call ∈ c.calls, call.Ok c.log

theorem Conn.CallsOk.move (h : c.CallsOk) (hm : c.Move b c') : c'.CallsOk := by
  intro call hmem
  have hkeep : call ∈ c.calls → call.Ok c'.log := fun hc => (h call hc).mono hm.log_isPrefix
  cases hm with
  | task hm => cases hm <;> exact hkeep hmem
  | user hm =>
    cases hm with
    | start hu hc =>
      rcases List.mem_append.mp hmem with hmem | hmem
      · exact hkeep hmem
      · obtain rfl := List.mem_singleton.mp hmem; trivial
    | close hu hc | closeConsumed hu hc =>
      rcases List.mem_append.mp hmem with hmem | hmem
      · exact hkeep hmem
      · obtain rfl := List.mem_singleton.mp hmem; exact c.closeCall_ok
    | closeTake hc hi =>
      rcases List.mem_or_eq_of_mem_set hmem with hmem | rfl
      · exact hkeep hmem
      · exact (h _ (List.mem_of_getElem? hc) : Call.Ok c.log (.closeTake _))
    | startRefused | dropHandle | dropStopper => exact hkeep hmem
    | startOk | startErr | unwrapFails | closeReturned =>
      exact hkeep (List.mem_of_mem_eraseIdx hmem)
  | msg _ | reader _ | writer _ => exact hkeep hmem

theorem reach_callsOk (hr : (Conn.machine A).Reach c) : c.CallsOk :=
  hr.invariant nofun fun _ _ _ h hs => h.move (Conn.step_cases hs)

/-! ### The invariant -/

/-- Who the entries belong to, and whose stopper can have been dropped. -/
structure RegInv (conns : Nat → Conn A) (connections : A × A → Option Nat) : Prop where
  entry : ∀ key i, connections key = some i →
    (conns i).key = some key ∧ (conns i).pc.pastInsert = true
  dropped : ∀ i, (conns i).stopDropped = true → (conns i).pc.pastInsert = true

section
variable {conns : Nat → Conn A} {connections : A × A → Option Nat} {i : Nat}

/-- A connection that has not inserted has no entry and was not stopped. -/
theorem RegInv.before_insert (h : RegInv conns connections)
    (hp : (conns i).pc.pastInsert = false) :
    (conns i).stopDropped = false ∧ ∀ key, connections key ≠ some i := by
  constructor
  · by_contra hd
    rw [h.dropped i (by simpa using hd)] at hp; cases hp
  · intro key hkey
    rw [(h.entry key i hkey).2] at hp; cases hp

/-- A step of one connection keeps it. -/
theorem RegInv.update (h : RegInv conns connections) (hm : (conns i).Move b c)
    (hb : b ≠ .dropStopper) : RegInv (Function.update conns i c) connections := by
  constructor
  · intro key j hj
    rcases eq_or_ne j i with rfl | hij
    · obtain ⟨hkey, hpast⟩ := h.entry key j hj
      obtain ⟨hpast', hkey'⟩ := hm.pastInsert hpast
      rw [Function.update_self]; exact ⟨hkey'.trans hkey, hpast'⟩
    · rw [Function.update_of_ne hij]; exact h.entry key j hj
  · intro j hj
    rcases eq_or_ne j i with rfl | hij
    · rw [Function.update_self] at hj ⊢
      exact (hm.pastInsert (h.dropped j ((hm.stopDropped hb).symm.trans hj))).1
    · rw [Function.update_of_ne hij] at hj ⊢; exact h.dropped j hj

/-- Dropping stoppers whose owners are past their insert keeps it. -/
theorem RegInv.drop (h : RegInv conns connections) (p : Nat → Prop) [DecidablePred p]
    (hp : ∀ j, p j → (conns j).pc.pastInsert = true) :
    RegInv (fun j => if p j then (conns j).dropStopper else conns j) connections := by
  constructor
  · intro key j hj
    split <;> exact h.entry key j hj
  · intro j hj
    split at hj
    · rename_i hpj
      rw [if_pos hpj]; exact hp j hpj
    · rename_i hpj
      rw [if_neg hpj]; exact h.dropped j hj

/-- So does taking entries out. -/
theorem RegInv.sub (h : RegInv conns connections) {connections' : A × A → Option Nat}
    (hsub : ∀ key i, connections' key = some i → connections key = some i) :
    RegInv conns connections' :=
  ⟨fun key i hi => h.entry key i (hsub key i hi), h.dropped⟩

end

variable [DecidableEq A] {s s' : State A} {a : Act A} {i : Nat}

theorem RegInv.remove (h : RegInv s.conns s.connections) (key : A × A) :
    RegInv (s.remove key).conns (s.remove key).connections := by
  refine RegInv.sub (h.drop (fun j => s.connections key = some j) ?_) ?_
  · exact fun j hj => (h.entry key j hj).2
  · intro k j hj
    rw [State.remove_connections] at hj
    rcases eq_or_ne k key with rfl | hk
    · rw [Function.update_self] at hj; cases hj
    · rwa [Function.update_of_ne hk] at hj

/-- The connection that inserts is past its insert then. -/
theorem RegInv.insert (h : RegInv s.conns s.connections) {key : A × A}
    (hkey : (s.conns i).key = some key) (hp : (s.conns i).pc.pastInsert = true) :
    RegInv (s.insert key i).conns (s.insert key i).connections := by
  have hdrop := h.drop (fun j => s.connections key = some j) fun j hj => (h.entry key j hj).2
  refine ⟨?_, hdrop.dropped⟩
  intro k j hj
  rw [State.insert_connections] at hj
  rcases eq_or_ne k key with rfl | hk
  · rw [Function.update_self] at hj
    obtain rfl := Option.some.inj hj
    rw [State.insert_conns, State.remove_conns]
    split <;> exact ⟨hkey, hp⟩
  · rw [Function.update_of_ne hk] at hj
    exact hdrop.entry k j hj

theorem RegInv.access (h : RegInv s.conns s.connections) {key : Option (A × A)} {op : RegOp}
    (hp : op = .insert → (s.conns i).key = key ∧ (s.conns i).pc.pastInsert = true) :
    RegInv (s.access i key op).conns (s.access i key op).connections := by
  unfold State.access
  split
  · obtain ⟨hkey, hpast⟩ := hp rfl
    exact h.insert hkey hpast
  · exact h.remove _
  · exact h.remove _
  · exact h

theorem RegInv.step (h : RegInv s.conns s.connections) (hstep : s.step a = some s') :
    RegInv s'.conns s'.connections := by
  cases step_registry hstep with
  | other _ hc hk => rw [hc, hk]; exact h
  | conn i b c hs _ hb _ hc hk => rw [hc, hk]; exact h.update (Conn.step_cases hs) hb
  | access i b c hs hop hown =>
    have hu := h.update (Conn.step_cases hs) (by rintro rfl; cases hown)
    refine RegInv.access (s := s.setConn i c) hu fun hins => ?_
    have hacc := access_cases hs hop
    rw [hins] at hacc
    cases hacc with
    | insert hp => rw [State.setConn_conns, Function.update_self]; exact ⟨rfl, rfl⟩
  | clear _ =>
    refine RegInv.sub (h.drop (fun j => (s.conns j).key.bind s.connections = some j) ?_) nofun
    intro j hj
    obtain ⟨key, -, hkey⟩ := Option.bind_eq_some_iff.mp hj
    exact (h.entry key j hkey).2

theorem reach_regInv (hr : (machine A).Reach s) : RegInv s.conns s.connections :=
  hr.invariant (I := fun s => RegInv s.conns s.connections) ⟨nofun, nofun⟩
    fun _ _ _ h hs => h.step hs

/-! ### Stops from elsewhere -/

/-- The stop signal of connection `j` may fire: its join loop is over, or it was closed by its own
    `Conn`, or `stop_all` ran. -/
def State.MayStop (s : State A) (j : Nat) : Prop :=
  (s.conns j).pc.joining = true → .closeCalled ∈ (s.conns j).log ∨ s.stopAllRan = true

/-- No connection was stopped by another one, and no cleanup removed the stopper of another one. -/
def Undisturbed (s : State A) : Prop :=
  (∀ j, (s.conns j).stopDropped = true → s.MayStop j) ∧ s.removedOther = false

/-- What the registry holds under the key of connection `i`. -/
def State.entry (s : State A) (i : Nat) : Option Nat := (s.conns i).key.bind s.connections

/-- Connection `j` runs on: it is in its join loop, nobody closed its `Conn`, and no `stop_all` came. -/
def State.RunsOn (s : State A) (j : Nat) : Prop :=
  (s.conns j).pc.joining = true ∧ .closeCalled ∉ (s.conns j).log ∧ s.stopAllRan = false

/-- Who may be registered under the key of connection `i` when it accesses the registry: at its
    cleanup no other connection, at its insert and at its close no other one that runs on. -/
def State.MayMeet (s : State A) (i j : Nat) : RegOp → Prop
  | .none => True
  | .cleanup => j = i
  | .insert | .close => s.RunsOn j → j = i

/-- Nobody else is registered under the key of a connection that accesses the registry, as far as its
    access asks for that. -/
def MeetsOwn (s : State A) : Act A → Prop
  | .conn i b => ∀ j ∈ s.entry i, s.MayMeet i j ((s.conns i).regOp b)
  | _ => True

instance {j : Nat} : Decidable (s.RunsOn j) := inferInstanceAs (Decidable (_ ∧ _ ∧ _))

instance {j : Nat} : ∀ op, Decidable (s.MayMeet i j op)
  | .none => .isTrue trivial
  | .cleanup => inferInstanceAs (Decidable (_ = _))
  | .insert | .close => inferInstanceAs (Decidable (_ → _))

instance : ∀ a, Decidable (MeetsOwn s a)
  | .conn i b => inferInstanceAs (Decidable (∀ j ∈ s.entry i, s.MayMeet i j ((s.conns i).regOp b)))
  | .connect | .listen _ | .cancelListen _ | .abort | .clearConnections | .connected _ _ | .bindOk _
  | .bindFails _ | .listenErrorReturned _ | .insertListener _ | .accept _ _ | .acceptNoAddr _
  | .acceptFails _ | .canceled _ => .isTrue trivial

/-- An access drops what it meets. -/
theorem access_conns {key : Option (A × A)} {op : RegOp} (hop : op ≠ .none) (j : Nat) :
    (s.access i key op).conns j =
      if key.bind s.connections = some j then (s.conns j).dropStopper else s.conns j := by
  cases key with
  | none => cases op <;> simp [State.access]
  | some key =>
    cases op with
    | none => exact absurd rfl hop
    | insert | cleanup | close => simp [State.access]

/-- The same connection, or with its stopper dropped. -/
def Conn.Like (c c' : Conn A) : Prop := c' = c ∨ c' = c.dropStopper

omit [DecidableEq A] in
theorem Conn.Like.pc (h : c.Like c') : c'.pc = c.pc := by
  rcases h with rfl | rfl <;> rfl

/-- A step of the manager is a step of at most one connection; the others lose at most their
    stopper. -/
theorem step_like (h : s.step a = some s') :
    (∃ i b c, (s.conns i).step b = some c ∧
      (a = .conn i b ∨ b.own = false ∧ ∀ j b', a ≠ .conn j b') ∧
      ∀ j, (Function.update s.conns i c j).Like (s'.conns j)) ∨
    (∀ i b, a ≠ .conn i b) ∧ ∀ j, (s.conns j).Like (s'.conns j) := by
  cases step_registry h with
  | other ha hc => exact .inr ⟨ha, fun j => .inl (by rw [hc])⟩
  | conn i b c hs _ _ ha hc => exact .inl ⟨i, b, c, hs, ha, fun j => .inl (by rw [hc])⟩
  | access i b c hs hop =>
    refine .inl ⟨i, b, c, hs, .inl rfl, fun j => ?_⟩
    rw [access_conns hop, State.setConn_conns]
    split
    · exact .inr rfl
    · exact .inl rfl
  | clear _ =>
    refine .inr ⟨by simp, fun j => ?_⟩
    rw [State.clearConnections_conns]
    split
    · exact .inr rfl
    · exact .inl rfl

theorem access_connections {key : Option (A × A)} {op : RegOp} (hop : op ≠ .none) (k : A × A) :
    (s.access i key op).connections k =
      if key = some k then (if op = .insert then some i else none) else s.connections k := by
  cases key with
  | none => cases op <;> simp [State.access]
  | some key =>
    rcases eq_or_ne key k with rfl | hk
    · cases op with
      | none => exact absurd rfl hop
      | insert | cleanup | close => simp [State.access]
    · cases op <;> simp [State.access, hk, Function.update_of_ne hk.symm]

theorem access_stopAllRan {key : Option (A × A)} {op : RegOp} :
    (s.access i key op).stopAllRan = s.stopAllRan := by
  unfold State.access
  split <;> rfl

theorem access_removedOther {key : Option (A × A)} {op : RegOp} :
    (s.access i key op).removedOther = true ↔
      s.removedOther = true ∨ op = .cleanup ∧ ∃ j, key.bind s.connections = some j ∧ j ≠ i := by
  cases key with
  | none => cases op <;> simp [State.access]
  | some key =>
    cases op with
    | none | insert | close => simp [State.access]
    | cleanup =>
      cases hk : s.connections key with
      | none => simp [State.access, hk]
      | some j => simp [State.access, hk]

omit [DecidableEq A] in
theorem mayStop_congr {j : Nat} (hpc : (s'.conns j).pc = (s.conns j).pc)
    (hlog : (s'.conns j).log = (s.conns j).log) (hst : s'.stopAllRan = s.stopAllRan) :
    s'.MayStop j ↔ s.MayStop j := by
  unfold State.MayStop
  rw [hpc, hlog, hst]

omit [DecidableEq A] in
/-- A stop of a connection needs a reason exactly while it runs on. -/
theorem mayStop_iff {j : Nat} : s.MayStop j ↔ ¬ s.RunsOn j := by
  simp only [State.MayStop, State.RunsOn, not_and, Bool.not_eq_false]
  exact imp_congr_right fun _ => or_iff_not_imp_left

/-- The connection that accesses the registry was closed, or is not in its join loop with a dropped
    stopper. -/
theorem mayStop_self (hr : (machine A).Reach s) {op : RegOp} (hacc : Access (s.conns i) b op c)
    (hj : c.pc.joining = true) :
    .closeCalled ∈ c.log ∨ (s.conns i).stopDropped = false ∧ s.entry i ≠ some i := by
  cases hacc with
  | insert hp =>
    obtain ⟨hd, hnone⟩ := (reach_regInv hr).before_insert (i := i) (by rw [hp]; rfl)
    refine .inr ⟨hd, fun hent => ?_⟩
    obtain ⟨key, -, hkey⟩ := Option.bind_eq_some_iff.mp hent
    exact hnone key hkey
  | cleanup hp => cases hj
  | close hc =>
    have hcall := reach_callsOk (reach_conn hr i) _ (List.mem_of_getElem? hc)
    exact .inl (List.mem_append_left _ hcall.1)

/-- The effect of an access by connection `i`, whose own step leads to `c`. -/
structure AccessEffect (s t : State A) (i : Nat) (c : Conn A) (op : RegOp) : Prop where
  conns : ∀ j, t.conns j = if s.entry i = some j then (Function.update s.conns i c j).dropStopper
    else Function.update s.conns i c j
  connections : ∀ k, t.connections k =
    if (s.conns i).key = some k then (if op = .insert then some i else none) else s.connections k
  stopAllRan : t.stopAllRan = s.stopAllRan
  removedOther : t.removedOther = true ↔
    s.removedOther = true ∨ op = .cleanup ∧ ∃ j, s.entry i = some j ∧ j ≠ i

theorem access_effect {op : RegOp} (hop : op ≠ .none) :
    AccessEffect s ((s.setConn i c).access i (s.conns i).key op) i c op :=
  ⟨access_conns hop, access_connections hop, access_stopAllRan, access_removedOther⟩

/-- A step of connection `i` that accesses the registry is one of the three. -/
theorem step_access (h : s.step (.conn i b) = some s') (hop : (s.conns i).regOp b ≠ .none) :
    ∃ c, Access (s.conns i) b ((s.conns i).regOp b) c ∧
      AccessEffect s s' i c ((s.conns i).regOp b) := by
  obtain ⟨-, hs⟩ := step_conn h
  obtain ⟨c, hc, rfl⟩ := Option.map_eq_some_iff.mp hs
  exact ⟨c, access_cases hc hop, access_effect hop⟩

/-- Seen from another connection, an access takes at most its stopper. -/
theorem AccessEffect.other {t : State A} {op : RegOp} (h : AccessEffect s t i c op) {j : Nat}
    (hij : j ≠ i) : t.MayStop j ↔ s.MayStop j := by
  have hc := h.conns j
  rw [Function.update_of_ne hij] at hc
  refine mayStop_congr ?_ ?_ h.stopAllRan
  · rw [hc]; split <;> rfl
  · rw [hc]; split <;> rfl

theorem AccessEffect.meets {t : State A} {op : RegOp} (h : AccessEffect s t i c op)
    (hu : Undisturbed t) {j : Nat} (hj : s.entry i = some j) : s.MayMeet i j op := by
  have hstop : j ≠ i → s.MayStop j := by
    intro hij
    refine (h.other hij).mp (hu.1 j ?_)
    rw [h.conns j, if_pos hj]; rfl
  cases op with
  | none => trivial
  | cleanup =>
    by_contra hij
    have hrem := h.removedOther.mpr (.inr ⟨rfl, j, hj, hij⟩)
    rw [hu.2] at hrem; cases hrem
  | insert | close =>
    intro hruns
    by_contra hij
    exact mayStop_iff.mp (hstop hij) hruns

theorem AccessEffect.undisturbed {t : State A} {op : RegOp} (h : AccessEffect s t i c op)
    (hr : (machine A).Reach s) (hu : Undisturbed s) (hacc : Access (s.conns i) b op c)
    (hmeet : ∀ j, s.entry i = some j → s.MayMeet i j op) : Undisturbed t := by
  have hother : ∀ j, s.entry i = some j → j ≠ i → s.MayStop j ∧ op ≠ .cleanup := by
    intro j hj hij
    have hm := hmeet j hj
    cases hacc with
    | insert _ | close _ => exact ⟨mayStop_iff.mpr fun hruns => hij (hm hruns), by simp⟩
    | cleanup _ => exact absurd hm hij
  refine ⟨fun j hd => ?_, ?_⟩
  · rcases eq_or_ne j i with rfl | hij
    · have hc := h.conns j
      rw [Function.update_self] at hc
      have hcj : (t.conns j).pc = c.pc ∧ (t.conns j).log = c.log := by
        rw [hc]; split <;> exact ⟨rfl, rfl⟩
      intro hjoin
      rw [hcj.1] at hjoin
      rw [hcj.2]
      rcases mayStop_self hr hacc hjoin with hclose | ⟨hnd, hne⟩
      · exact .inl hclose
      · rw [hc, if_neg hne] at hd
        have hsd : c.stopDropped = (s.conns j).stopDropped := by cases hacc <;> rfl
        rw [hsd, hnd] at hd; cases hd
    · refine (h.other hij).mpr ?_
      by_cases hj : s.entry i = some j
      · exact (hother j hj hij).1
      · refine hu.1 j ?_
        rw [h.conns j, if_neg hj, Function.update_of_ne hij] at hd
        exact hd
  · rw [Bool.eq_false_iff, Ne, h.removedOther]
    rintro (hrem | ⟨hop, j, hj, hij⟩)
    · rw [hu.2] at hrem; cases hrem
    · exact (hother j hj hij).2 hop

omit [DecidableEq A] in
/-- A step of a connection that does not access the registry stops nobody. -/
theorem Undisturbed.update (hu : Undisturbed s) (hs : (s.conns i).step b = some c)
    (hop : (s.conns i).regOp b = .none) (hb : b ≠ .dropStopper)
    (hc : s'.conns = Function.update s.conns i c) (hst : s'.stopAllRan = s.stopAllRan)
    (hro : s'.removedOther = s.removedOther) : Undisturbed s' := by
  have hm := Conn.step_cases hs
  refine ⟨fun j hd => ?_, hro.trans hu.2⟩
  rcases eq_or_ne j i with rfl | hij
  · have hcj : s'.conns j = c := by rw [hc, Function.update_self]
    intro hjoin
    rw [hcj] at hd hjoin ⊢
    rw [hm.stopDropped hb] at hd
    rcases hm.joining hjoin with hold | ⟨hp, rfl⟩
    · rcases hu.1 j hd hold with hclose | hall
      · exact .inl (hm.log_isPrefix.subset hclose)
      · exact .inr (hst.trans hall)
    · simp [Conn.regOp, hp] at hop
  · have hcj : s'.conns j = s.conns j := by rw [hc, Function.update_of_ne hij]
    refine (mayStop_congr ?_ ?_ hst).mpr (hu.1 j (hcj ▸ hd)) <;> rw [hcj]

/-- One step disturbs nobody if and only if nobody else is in the way of its access. -/
theorem undisturbed_step (hr : (machine A).Reach s) (hu : Undisturbed s)
    (hstep : s.step a = some s') : Undisturbed s' ↔ MeetsOwn s a := by
  cases step_registry hstep with
  | other ha hc hk hst hro =>
    have hm : MeetsOwn s a := by
      cases a with
      | conn i b => exact absurd rfl (ha i b)
      | _ => trivial
    refine iff_of_true ⟨fun j hd hjoin => ?_, hro.trans hu.2⟩ hm
    rw [hc] at hd hjoin ⊢
    exact (hu.1 j hd hjoin).imp_right hst
  | conn i b c hs hop hb ha hc hk hst hro =>
    refine iff_of_true (hu.update hs hop hb hc hst hro) ?_
    rcases ha with rfl | ⟨-, ha⟩
    · intro j _
      rw [hop]; trivial
    · cases a with
      | conn i b => exact absurd rfl (ha i b)
      | _ => trivial
  | access i b c hs hop _ =>
    have heff := access_effect (s := s) (i := i) (c := c) hop
    exact ⟨fun hu' j hj => heff.meets hu' hj,
      fun hmeet => heff.undisturbed hr hu (access_cases hs hop) hmeet⟩
  | clear _ => exact iff_of_true ⟨fun _ _ _ => .inr rfl, hu.2⟩ trivial

/-- The connections of one manager do not stop each other along a run in which nobody else is registered
    under the key of a cleanup, and nobody else that runs on under the key of an insert or of a close;
    and the first access that finds one there disturbs. -/
theorem undisturbed_iff_meets_own (A : Type) [DecidableEq A] :
    (∀ s, (machine A).Path MeetsOwn State.init s → Undisturbed s) ∧
    (∀ s a s', (machine A).Reach s → Undisturbed s → s.step a = some s' →
      (Undisturbed s' ↔ MeetsOwn s a)) := by
  refine ⟨?_, fun s a s' hr hu hs => undisturbed_step hr hu hs⟩
  intro s hp
  refine Machine.Path.invariant_of_reach hp ⟨nofun, rfl⟩ ?_
  intro s a s' hr hok hu hs
  exact (undisturbed_step hr hu hs).mpr hok

/-- Both halves of connection `i` end and its join loop is left. -/
def endConn (i : Nat) : List (Act A) :=
  [.conn i (.reader .poll), .conn i (.reader (.finish .ok)), .conn i (.writer .poll),
    .conn i (.writer (.finish .ok)), .conn i .joinReader, .conn i (.returns true),
    .conn i .joinWriter]

/-- Connection 1 gets the addresses of connection 0 before the cleanup of connection 0, which then
    stops it. -/
theorem cleanup_stops_other : ∃ s : State Nat, (machine Nat).Reach s ∧ ¬ Undisturbed s ∧
    (s.conns 1).pc = .join false false ∧ (s.conns 1).stopDropped = true ∧
    .closeCalled ∉ (s.conns 1).log ∧ s.stopAllRan = false := by
  obtain ⟨s, hr, hs⟩ := (machine Nat).reach_of_run
    (openConn 0 (1, 2) ++ endConn 0 ++ openConn 1 (1, 2) ++ [.conn 0 .task])
    (fun s => decide (s.removedOther = true ∧ (s.conns 1).pc = .join false false ∧
      (s.conns 1).stopDropped = true ∧ .closeCalled ∉ (s.conns 1).log ∧ s.stopAllRan = false))
    (by decide +kernel)
  obtain ⟨hrem, hpc, hd, hclose, hall⟩ := of_decide_eq_true hs
  refine ⟨s, hr, fun hu => ?_, hpc, hd, hclose, hall⟩
  rw [hu.2] at hrem; cases hrem

/-- Connection 1 gets them after the cleanup, and runs undisturbed. -/
theorem undisturbed_reused_key : ∃ s : State Nat, (machine Nat).Path MeetsOwn State.init s ∧
    (s.conns 0).key = (s.conns 1).key ∧ (s.conns 1).pc = .join false false ∧ Undisturbed s := by
  obtain ⟨s, hp, hs⟩ := (machine Nat).path_of_guarded_run MeetsOwn
    (openConn 0 (1, 2) ++ endConn 0 ++ [.conn 0 .task] ++ openConn 1 (1, 2))
    (fun s => decide ((s.conns 0).key = (s.conns 1).key ∧ (s.conns 1).pc = .join false false))
    (by decide +kernel)
  obtain ⟨hkey, hpc⟩ := of_decide_eq_true hs
  exact ⟨s, hp, hkey, hpc, (undisturbed_iff_meets_own Nat).1 s hp⟩

end SocketManager.Manager
