import SocketManager.Manager.Registry

/-! `Conn::close` after the start. A close that finds the connection started acts through the registry
    only: it removes the stopper, which the connection task inserts some steps after `OnConnect`
    returned. A removal that comes before the insert removes nothing, and the insert that follows
    leaves a stopper that no one will drop:

        task    OnConnect returns ── config ── spawn, spawn ──────── insert ── join loop
        user                                                 close

    A removal after the insert is final: a task inserts once. -/

namespace SocketManager.Manager
variable {A : Type} {c c' : Conn A} {b : ConnAct A}

/-- A close of a started connection removes the stopper only when the insert is behind the task. -/
def ClosesAfterInsert (c : Conn A) : ConnAct A → Prop
  | .user n => c.calls[n]? = some (.closeRemove true) → c.pc.pastInsert = true
  | _ => True

instance : ∀ b, Decidable (ClosesAfterInsert c b)
  | .user _ => inferInstanceAs (Decidable (_ → _))
  | .connect | .connected _ | .connectFails | .accept _ | .task | .returns _ | .joinStop | .joinWriter
  | .joinReader | .reader _ | .writer _ | .start | .close | .dropHandle | .dropStopper =>
    .isTrue trivial

/-- A close of a started connection returns by one move only. -/
theorem Conn.Move.returns_late (h : c.Move b c') (hr : .closeReturned true ∈ c'.log) :
    .closeReturned true ∈ c.log ∨ ∃ n, b = .user n ∧ c.calls[n]? = some (.closeRemove true) := by
  cases h with
  | task h =>
    cases h with
    | connectFails hp | onConnect hp | connectOk hp | connectErr hp | closing hp | readerOk hp =>
      exact .inl (mem_of_mem_concat (by simp) hr)
    | _ => exact .inl hr
  | user h =>
    cases h with
    | @closeReturned n late hc =>
      cases late with
      | true => exact .inr ⟨n, rfl, hc⟩
      | false => exact .inl (mem_of_mem_concat (by simp) hr)
    | startRefused | close | closeConsumed | startOk | startErr =>
      exact .inl (mem_of_mem_concat (by simp) hr)
    | _ => exact .inl hr
  | msg _ => exact .inl (mem_of_mem_concat (by simp) hr)
  | reader _ | writer _ => exact .inl hr

/-- No addresses are known yet. -/
def Pc.keyless : Pc → Bool
  | .unborn | .connecting | .inConnectError | .failed => true
  | _ => false

/-- What a started connection is on its way to. -/
structure StartInv (c : Conn A) : Prop where
  key : c.pc.keyless = false → c.key ≠ none
  returned : .connectReturned true ∈ c.log → c.pc.returnedOk = true ∨ c.pc.pastInsert = true
  sent : .startOk ∈ c.log → c.configSent = true

theorem StartInv.key_move (h : StartInv c) (hm : c.Move b c') (hk : c'.pc.keyless = false) :
    c'.key ≠ none := by
  have hold := h.key
  cases hm with
  | task hm =>
    cases hm with
    | connect hp | connectFails hp | errorReturned hp => cases hk
    | connected key hp | accept key hp => simp
    | onConnect hp | configured hp | unconfigured hp | spawnWriter hp | spawnReader hp | insert hp
    | remove hp | closing hp | connectOk hp | connectErr hp | remoteReturned hp
    | remoteReturnedLast hp | closeReturned hp | joinStop hp | writerPolledAgain hp | writerOk hp
    | writerOkLast hp | writerErr hp | readerPolledAgain hp | readerOk hp | readerErr hp =>
      rw [hp] at hold; exact hold rfl
  | user hm => cases hm <;> exact hold hk
  | msg _ | reader _ | writer _ => exact hold hk

theorem StartInv.returned_move (h : StartInv c) (hm : c.Move b c')
    (hr : .connectReturned true ∈ c'.log) :
    c'.pc.returnedOk = true ∨ c'.pc.pastInsert = true := by
  have hold := h.returned
  cases hm with
  | task hm =>
    cases hm with
    | connectOk hp => exact .inl rfl
    | configured hp | spawnWriter hp | spawnReader hp => exact .inl rfl
    | unconfigured hp | insert hp | remove hp | remoteReturned hp | remoteReturnedLast hp
    | closeReturned hp | joinStop hp | writerPolledAgain hp | writerOk hp | writerOkLast hp
    | writerErr hp | readerPolledAgain hp | readerErr hp => exact .inr rfl
    | closing hp | connectErr hp | readerOk hp => exact .inr rfl
    | connect hp | connected key hp | accept key hp | errorReturned hp =>
      have := hold hr
      rw [hp] at this; simp [Pc.returnedOk, Pc.pastInsert] at this
    | connectFails hp | onConnect hp =>
      have := hold (mem_of_mem_concat (by simp) hr)
      rw [hp] at this; simp [Pc.returnedOk, Pc.pastInsert] at this
  | user hm =>
    obtain ⟨hpc, -⟩ := hm.frame
    rw [hpc]
    cases hm with
    | startRefused | close | closeConsumed | startOk | startErr | closeReturned =>
      exact hold (mem_of_mem_concat (by simp) hr)
    | _ => exact hold hr
  | msg _ => exact hold (mem_of_mem_concat (by simp) hr)
  | reader _ | writer _ => exact hold hr

theorem StartInv.sent_move (h : StartInv c) (hm : c.Move b c') (hs : .startOk ∈ c'.log) :
    c'.configSent = true := by
  have hold := h.sent
  cases hm with
  | task hm =>
    cases hm with
    | connectFails hp | onConnect hp | connectOk hp | connectErr hp | closing hp | readerOk hp =>
      exact hold (mem_of_mem_concat (by simp) hs)
    | _ => exact hold hs
  | user hm =>
    cases hm with
    | startOk hc hi hrx => rfl
    | startRefused | close | closeConsumed | startErr | closeReturned =>
      exact hold (mem_of_mem_concat (by simp) hs)
    | _ => exact hold hs
  | msg _ => exact hold (mem_of_mem_concat (by simp) hs)
  | reader _ | writer _ => exact hold hs

theorem reach_startInv (hr : (Conn.machine A).Reach c) : StartInv c := by
  refine hr.invariant ⟨nofun, nofun, nofun⟩ fun c b c' h hs => ?_
  have hm := Conn.step_cases hs
  exact ⟨h.key_move hm, h.returned_move hm, h.sent_move hm⟩

section
variable {s : State A} {i : Nat}

/-- What a caller of `close` may expect of connection `i`: its stopper is not left in the registry with
    the join loop running and no stop signal. -/
def State.Effective (s : State A) (i : Nat) : Prop :=
  .closeReturned true ∈ (s.conns i).log →
    ¬ (s.entry i = some i ∧ (s.conns i).pc.joining = true ∧ (s.conns i).stopDropped = false)

/-- Connection `i` has no entry and will not have one. -/
def State.Unlisted (s : State A) (i : Nat) : Prop :=
  (s.conns i).pc.pastInsert = true ∧ ∀ key, s.connections key ≠ some i

theorem State.Unlisted.effective (h : s.Unlisted i) : s.Effective i := by
  rintro - ⟨hent, -⟩
  obtain ⟨key, -, hkey⟩ := Option.bind_eq_some_iff.mp hent
  exact h.2 key hkey

end

variable [DecidableEq A] {s s' : State A} {a : Act A} {i : Nat}

/-! ### A removal after the insert is final -/

/-- Entries come from the insert of their connection. -/
theorem entry_step (hstep : s.step a = some s') {key : A × A} (h : s'.connections key = some i) :
    s.connections key = some i ∨ (s.conns i).pc = .insert := by
  cases step_registry hstep with
  | other _ _ hk => exact .inl (hk ▸ h)
  | conn j b c _ _ _ _ _ hk => exact .inl (hk ▸ h)
  | access j b c hs hop _ =>
    have hacc := access_cases hs hop
    rw [(access_effect hop).connections key] at h
    generalize (s.conns j).regOp b = op at h hacc
    split at h
    · cases hacc with
      | insert hp => obtain rfl := Option.some.inj h; exact .inr hp
      | cleanup _ | close _ => cases h
    · exact .inl h
  | clear _ => cases h

theorem pastInsert_step (hstep : s.step a = some s') (hp : (s.conns i).pc.pastInsert = true) :
    (s'.conns i).pc.pastInsert = true := by
  have hpath : (machine A).Path (fun _ _ => True) s s' := .single trivial hstep
  refine (path_conn_any hpath i).invariant (I := fun c => c.pc.pastInsert = true) hp ?_
  intro c b c' _ h hs
  exact ((Conn.step_cases hs).pastInsert h).1

theorem State.Unlisted.step (h : s.Unlisted i) (hstep : s.step a = some s') : s'.Unlisted i := by
  refine ⟨pastInsert_step hstep h.1, fun key hkey => ?_⟩
  rcases entry_step hstep hkey with hold | hp
  · exact h.2 key hold
  · have := h.1
    rw [hp] at this; cases this

/-- A close of a started connection returns by the removal of its stopper. -/
theorem returned_step (hstep : s.step a = some s') (h : .closeReturned true ∈ (s'.conns i).log) :
    .closeReturned true ∈ (s.conns i).log ∨
      ∃ n, a = .conn i (.user n) ∧ (s.conns i).calls[n]? = some (.closeRemove true) := by
  cases step_registry hstep with
  | other _ hc => exact .inl (hc ▸ h)
  | conn j b c hs hop _ _ hc =>
    rw [hc] at h
    rcases eq_or_ne i j with rfl | hij
    · rw [Function.update_self] at h
      rcases (Conn.step_cases hs).returns_late h with hold | ⟨n, rfl, hcall⟩
      · exact .inl hold
      · simp [Conn.regOp, hcall] at hop
    · rw [Function.update_of_ne hij] at h; exact .inl h
  | access j b c hs hop _ =>
    have hlog : .closeReturned true ∈ (Function.update s.conns j c i).log := by
      rw [(access_effect hop).conns i] at h
      split at h <;> exact h
    rcases eq_or_ne i j with rfl | hij
    · rw [Function.update_self] at hlog
      rcases (Conn.step_cases hs).returns_late hlog with hold | ⟨n, rfl, hcall⟩
      · exact .inl hold
      · exact .inr ⟨n, rfl, hcall⟩
    · rw [Function.update_of_ne hij] at hlog; exact .inl hlog
  | clear _ =>
    rw [State.clearConnections_conns] at h
    split at h <;> exact .inl h

/-- A removal by a connection that is past its insert leaves no entry of it. -/
theorem unlisted_of_removal (hr : (machine A).Reach s)
    (hop : (s.conns i).regOp b = .cleanup ∨ (s.conns i).regOp b = .close)
    (hstep : s.step (.conn i b) = some s') (hp : (s.conns i).pc.pastInsert = true) :
    s'.Unlisted i := by
  obtain ⟨c, -, heff⟩ := step_access hstep (by rcases hop with hop | hop <;> rw [hop] <;> simp)
  refine ⟨pastInsert_step hstep hp, fun key hkey => ?_⟩
  rw [heff.connections key] at hkey
  split at hkey
  · rcases hop with hop | hop <;> (rw [hop] at hkey; cases hkey)
  · rename_i hne
    exact hne ((reach_regInv hr).entry key i hkey).1

omit [DecidableEq A] in
theorem regOp_of_closeRemove {n : Nat} {late : Bool} (h : c.calls[n]? = some (.closeRemove late)) :
    c.regOp (.user n) = .close := by
  simp [Conn.regOp, h]

theorem unlisted_path (h : s.Unlisted i) (hp : (machine A).Path (fun _ _ => True) s s') :
    s'.Unlisted i :=
  hp.invariant (I := fun s => s.Unlisted i) h fun _ _ _ _ hu hs => hu.step hs

/-! ### A removal before the insert is lost -/

/-- Connection `i` can go on to its insert, and nothing else happens to it. -/
def State.ReachesInsert (s : State A) (i : Nat) : Prop :=
  ∃ t, (machine A).Path (fun _ _ => True) s t ∧ (t.conns i).pc = .insert ∧
    (t.conns i).log = (s.conns i).log

theorem State.ReachesInsert.of_task (ht : (s.conns i).taskStep = some c)
    (hop : (s.conns i).regOp .task = .none) (hlog : c.log = (s.conns i).log)
    (h : (s.setConn i c).ReachesInsert i) : s.ReachesInsert i := by
  obtain ⟨t, hp, hpc, hl⟩ := h
  have hstep : (machine A).step s (.conn i .task) = some (s.setConn i c) := by
    simp [machine, State.step, ConnAct.own, State.connStep, Conn.step, ht, hop, State.access]
  refine ⟨t, (Machine.Path.single trivial hstep).trans hp, hpc, ?_⟩
  rw [hl, State.setConn_conns, Function.update_self, hlog]

theorem reachesInsert_of_spawnReader (hp : (s.conns i).pc = .spawnReader) : s.ReachesInsert i := by
  refine .of_task (c := { s.conns i with reader := .spawn, pc := .insert }) ?_ ?_ rfl
    ⟨_, .refl, by simp, rfl⟩
  · simp [Conn.taskStep, hp]
  · simp [Conn.regOp, hp]

theorem reachesInsert_of_spawnWriter (hp : (s.conns i).pc = .spawnWriter) : s.ReachesInsert i := by
  refine .of_task (c := { s.conns i with writer := .spawn, pc := .spawnReader }) ?_ ?_ rfl
    (reachesInsert_of_spawnReader (by simp))
  · simp [Conn.taskStep, hp]
  · simp [Conn.regOp, hp]

theorem reachesInsert_of_awaitConfig (hp : (s.conns i).pc = .awaitConfig)
    (hc : (s.conns i).configSent = true) : s.ReachesInsert i := by
  refine .of_task (c := (s.conns i).goto .spawnWriter) ?_ ?_ rfl
    (reachesInsert_of_spawnWriter (by simp))
  · simp [Conn.taskStep, hp, hc]
  · simp [Conn.regOp, hp]

/-- A started connection that is not past its insert is on its way there. -/
theorem StartInv.reachesInsert (h : StartInv (s.conns i)) (hs : (s.conns i).started = true)
    (hp : (s.conns i).pc.pastInsert = false) : s.ReachesInsert i := by
  obtain ⟨hret, hstart⟩ := of_decide_eq_true hs
  have hok : (s.conns i).pc.returnedOk = true := by
    rcases h.returned hret with hok | hpast
    · exact hok
    · rw [hp] at hpast; cases hpast
  cases hpc : (s.conns i).pc with
  | awaitConfig => exact reachesInsert_of_awaitConfig hpc (h.sent hstart)
  | spawnWriter => exact reachesInsert_of_spawnWriter hpc
  | spawnReader => exact reachesInsert_of_spawnReader hpc
  | insert => exact ⟨s, .refl, hpc, rfl⟩
  | join ws rs | inRemoteClose ws => rw [hpc] at hp; cases hp
  | _ => rw [hpc] at hok; cases hok

/-- After the insert the stopper is in the registry, whatever was removed before. -/
theorem not_effective_of_insert (hr : (machine A).Reach s) (hp : (s.conns i).pc = .insert)
    (hc : .closeReturned true ∈ (s.conns i).log) :
    ∃ t, (machine A).Path (fun _ _ => True) s t ∧ ¬ t.Effective i := by
  obtain ⟨hd, hnone⟩ := (reach_regInv hr).before_insert (i := i) (by rw [hp]; rfl)
  obtain ⟨key, hkey⟩ := Option.ne_none_iff_exists'.mp
    ((reach_startInv (reach_conn hr i)).key (by rw [hp]; rfl))
  have hop : (s.conns i).regOp .task = .insert := by simp [Conn.regOp, hp]
  obtain ⟨t, hstep⟩ : ∃ t, s.step (.conn i .task) = some t := by
    simp [State.step, ConnAct.own, State.connStep, Conn.step, Conn.taskStep, hp]
  obtain ⟨c, hacc, heff⟩ := step_access hstep (by rw [hop]; simp)
  rw [hop] at hacc heff
  cases hacc with
  | insert _ =>
    have hci : t.conns i = (s.conns i).goto (.join false false) := by
      rw [heff.conns i, if_neg, Function.update_self]
      intro hent
      obtain ⟨k, -, hk⟩ := Option.bind_eq_some_iff.mp hent
      exact hnone k hk
    refine ⟨t, Machine.Path.single (a := .conn i .task) trivial hstep, fun he => ?_⟩
    refine he (by rw [hci]; exact hc) ⟨?_, by rw [hci]; rfl, ?_⟩
    · simp [State.entry, hci, hkey, heff.connections key]
    · rw [hci]; exact hd

/-- So a close that removed nothing can be followed by a connection that goes on. -/
theorem not_effective_of_early {n : Nat} (hr : (machine A).Reach s)
    (hcall : (s.conns i).calls[n]? = some (.closeRemove true))
    (hs : s.step (.conn i (.user n)) = some s') (hp : (s.conns i).pc.pastInsert = false) :
    ∃ t, (machine A).Path (fun _ _ => True) s' t ∧ ¬ t.Effective i := by
  have hop := regOp_of_closeRemove hcall
  obtain ⟨c, hacc, heff⟩ := step_access hs (by rw [hop]; simp)
  rw [hop] at hacc
  have hci : (s'.conns i).pc = c.pc ∧ (s'.conns i).log = c.log := by
    rw [heff.conns i, Function.update_self]; split <;> exact ⟨rfl, rfl⟩
  cases hacc with
  | @close n late hc =>
    obtain rfl : late = true := by
      rw [hcall] at hc
      simpa using hc.symm
    have hlog : (s'.conns i).log = (s.conns i).log ++ [.closeReturned true] := hci.2
    obtain ⟨hret, hstart⟩ :=
      (reach_callsOk (reach_conn hr i) _ (List.mem_of_getElem? hcall)).2 rfl
    have hr' : (machine A).Reach s' := hr.tail (a := .conn i (.user n)) trivial hs
    have hstarted : (s'.conns i).started = true := by
      unfold Conn.started
      rw [hlog]
      exact decide_eq_true ⟨List.mem_append_left _ hret, List.mem_append_left _ hstart⟩
    obtain ⟨t, ht, hpc, htlog⟩ :=
      (reach_startInv (reach_conn hr' i)).reachesInsert hstarted (hci.1 ▸ hp)
    obtain ⟨u, hu, hne⟩ := not_effective_of_insert (Machine.Path.trans hr' ht) hpc
      (by rw [htlog, hlog]; exact List.mem_append_right _ List.mem_cons_self)
    exact ⟨u, ht.trans hu, hne⟩

/-! ### Both together -/

/-- What is required of the steps gives what the callers expect. -/
theorem effective_path (hp : (machine A).Path (Lift ClosesAfterInsert) State.init s) (i : Nat) :
    s.Effective i := by
  have key : .closeReturned true ∈ (s.conns i).log → s.Unlisted i := by
    refine Machine.Path.invariant_of_reach
      (I := fun s => .closeReturned true ∈ (s.conns i).log → s.Unlisted i) hp nofun ?_
    intro s a s' hr hok h hs hret
    rcases returned_step hs hret with hold | ⟨n, rfl, hcall⟩
    · exact (h hold).step hs
    · exact unlisted_of_removal hr (.inr (regOp_of_closeRemove hcall)) hs (hok i _ rfl hcall)
  intro hret
  exact (key hret).effective hret

/-- `close` takes effect on a started connection along every run whose closes come after the insert;
    and a close is sure to take effect, whatever happens next, only if it does. -/
theorem close_effective_iff (A : Type) [DecidableEq A] :
    (∀ s, (machine A).Path (Lift ClosesAfterInsert) State.init s → ∀ i, s.Effective i) ∧
    (∀ s s' i n, (machine A).Reach s → (s.conns i).calls[n]? = some (.closeRemove true) →
      s.step (.conn i (.user n)) = some s' →
      ((∀ t, (machine A).Path (fun _ _ => True) s' t → t.Effective i) ↔
        (s.conns i).pc.pastInsert = true)) := by
  refine ⟨fun s hp i => effective_path hp i, ?_⟩
  intro s s' i n hr hcall hs
  constructor
  · intro hall
    by_contra hpast
    obtain ⟨t, ht, hne⟩ := not_effective_of_early hr hcall hs (by simpa using hpast)
    exact hne (hall t ht)
  · intro hpast t ht
    have hgone := unlisted_of_removal hr (.inr (regOp_of_closeRemove hcall)) hs hpast
    exact (unlisted_path hgone ht).effective

/-- The user closes after `OnConnect` returned and before the task inserts its stopper. -/
theorem early_close_lost : ∃ s : State Nat, (machine Nat).Reach s ∧ ¬ s.Effective 0 := by
  obtain ⟨s, hr, hs⟩ := (machine Nat).reach_of_run
    [.connect, .connected 0 (1, 2), .conn 0 .task, .conn 0 .start, .conn 0 (.user 0),
      .conn 0 (.returns true), .conn 0 .close, .conn 0 (.user 0), .conn 0 .task, .conn 0 .task,
      .conn 0 .task, .conn 0 .task]
    (fun s => decide (.closeReturned true ∈ (s.conns 0).log ∧ s.entry 0 = some 0 ∧
      (s.conns 0).pc.joining = true ∧ (s.conns 0).stopDropped = false))
    (by decide +kernel)
  obtain ⟨hret, hent, hjoin, hd⟩ := of_decide_eq_true hs
  exact ⟨s, hr, fun he => he hret ⟨hent, hjoin, hd⟩⟩

/-- The user closes in the join loop. -/
theorem close_effective_joining : ∃ s : State Nat,
    (machine Nat).Path (Lift ClosesAfterInsert) State.init s ∧
    .closeReturned true ∈ (s.conns 0).log ∧ (s.conns 0).pc = .join false false ∧ s.Effective 0 := by
  obtain ⟨s, hp, hs⟩ := (machine Nat).path_of_guarded_run (Lift ClosesAfterInsert)
    (openConn 0 (1, 2) ++ [.conn 0 .close, .conn 0 (.user 0)])
    (fun s => decide (.closeReturned true ∈ (s.conns 0).log ∧ (s.conns 0).pc = .join false false))
    (by decide +kernel)
  obtain ⟨hret, hpc⟩ := of_decide_eq_true hs
  exact ⟨s, hp, hret, hpc, (close_effective_iff Nat).1 s hp 0⟩

end SocketManager.Manager
