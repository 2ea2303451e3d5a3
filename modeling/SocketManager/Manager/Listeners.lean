import SocketManager.Manager.Steps

/-! `CancelListen` against the listening tasks. `main` handles the commands in order, but `Listen` only
    spawns a task that binds and then registers its cancel handle:

        main              Listen ──── CancelListen
        listening task          bind ─────────────── insert ── accept loop

    A cancel that comes before the insert finds nothing to remove and the task goes on to accept. With
    no task for the address on its way to the insert, the cancel leaves nothing behind. -/

namespace SocketManager.Manager
variable {A : Type}

/-- On the way to the insert. -/
def ListenPc.pending : ListenPc → Bool
  | .binding | .insert => true
  | _ => false

/-- In the accept loop. -/
def ListenPc.inAccept : ListenPc → Bool
  | .accepting _ => true
  | _ => false

section
variable (s : State A) (addr : A)

/-- After a `CancelListen` with no later `Listen`, once every listening task is past its insert, none
    for the address is in its accept loop with its cancel handle registered. -/
def State.CancelKept : Prop :=
  s.cancelled addr = true → (∀ t, (s.listening t).pc.pending = false) →
    ∀ t, (s.listening t).addr = some addr → (s.listening t).pc.inAccept = true →
      s.listeners addr ≠ some t

/-- No listening task for the address is on its way to the insert. -/
def State.NonePending : Prop :=
  ∀ t < s.freshListening, (s.listening t).addr = some addr → (s.listening t).pc.pending = false

end

/-- `CancelListen` is handled only when no listening task for its address is on its way to the
    insert. -/
def CancelsSettled (s : State A) : Act A → Prop
  | .cancelListen addr => s.NonePending addr
  | _ => True

variable [DecidableEq A] {s s' : State A} {a : Act A} {addr : A}

instance : Decidable (s.NonePending addr) :=
  inferInstanceAs (Decidable (∀ t < s.freshListening, _ → _))

instance : ∀ a, Decidable (CancelsSettled s a)
  | .cancelListen addr => inferInstanceAs (Decidable (s.NonePending addr))
  | .connect | .listen _ | .abort | .clearConnections | .connected _ _ | .bindOk _ | .bindFails _
  | .listenErrorReturned _ | .insertListener _ | .accept _ _ | .acceptNoAddr _ | .acceptFails _
  | .canceled _ | .conn _ _ => .isTrue trivial

/-! ### The steps on the listeners' side -/

/-- The step is no command for the address. -/
def NotFor (addr : A) (a : Act A) : Prop := a ≠ .listen addr ∧ a ≠ .cancelListen addr

/-- What a step does to the listening tasks and their registry. -/
inductive ListenStep (s : State A) : Act A → State A → Prop where
  | other {a : Act A} {s' : State A} (ha : ∀ addr, NotFor addr a)
      (hl : s'.listening = s.listening) (hf : s'.freshListening = s.freshListening)
      (hr : s'.listeners = s.listeners) (hc : s'.cancelled = s.cancelled) : ListenStep s a s'
  | listen (addr : A) : ListenStep s (.listen addr) (s.listen addr)
  | cancelListen (addr : A) : ListenStep s (.cancelListen addr) (s.cancelListen addr)
  | abort : ListenStep s .abort s.clearListeners
  /-- A listening task goes on; it does not become pending. -/
  | goto {a : Act A} (t : Nat) (pc : ListenPc) (ha : ∀ addr, NotFor addr a)
      (hp : pc.pending = true → (s.listening t).pc.pending = true)
      (hn : (s.listening t).pc ≠ .unborn) :
      ListenStep s a (s.setListening t { s.listening t with pc })
  | insert (t : Nat) (addr : A) (hp : (s.listening t).pc = .insert)
      (ha : (s.listening t).addr = some addr) :
      ListenStep s (.insertListener t) (s.insertListener t addr)

theorem access_listening (s : State A) (i : Nat) (key : Option (A × A)) (op : RegOp) :
    (s.access i key op).listening = s.listening ∧
      (s.access i key op).freshListening = s.freshListening ∧
      (s.access i key op).listeners = s.listeners ∧ (s.access i key op).cancelled = s.cancelled := by
  unfold State.access
  split <;> exact ⟨rfl, rfl, rfl, rfl⟩

theorem step_listen (h : s.step a = some s') : ListenStep s a s' := by
  cases State.step_cases h with
  | @listen addr => exact .listen addr
  | @cancelListen addr => exact .cancelListen addr
  | abort => exact .abort
  | @insertListener t addr hp ha => exact .insert t addr hp ha
  | @bindOk t hp =>
    exact .goto t .insert (by simp [NotFor]) (by rw [hp]; exact fun _ => rfl) (by rw [hp]; simp)
  | @bindFails t hp | @listenErrorReturned t hp | @acceptNoAddr t hp | @acceptFails t hp
  | @canceled t _ hp =>
    exact .goto t _ (by simp [NotFor]) (by simp [ListenPc.pending]) (by rw [hp]; simp)
  | connect | clearConnections | connected | accept =>
    exact .other (by simp [NotFor]) rfl rfl rfl rfl
  | @conn i b c =>
    obtain ⟨hl, hf, hr, hc⟩ :=
      access_listening (s.setConn i c) i (s.conns i).key ((s.conns i).regOp b)
    exact .other (by simp [NotFor]) hl hf hr hc

/-! ### The invariants -/

/-- The tasks spawned so far are the first ones, and each has its address. -/
structure ListenInv (s : State A) : Prop where
  fresh : ∀ t, s.freshListening ≤ t → (s.listening t).pc = .unborn
  addr : ∀ t, (s.listening t).pc ≠ .unborn → (s.listening t).addr ≠ none

/-- A cancelled address has no handle registered and no task on its way to register one. -/
def State.Clean (s : State A) (addr : A) : Prop :=
  s.listeners addr = none ∧ ∀ t, (s.listening t).addr = some addr → (s.listening t).pc.pending = false

omit [DecidableEq A] in
theorem State.Clean.kept (h : s.Clean addr) : s.CancelKept addr := by
  intro _ _ t _ _
  rw [h.1]; simp

/-- Dropping a cancel handle moves no task. -/
theorem removeListener_listening (s : State A) (addr : A) (t : Nat) :
    ((s.removeListener addr).listening t).pc = (s.listening t).pc ∧
      ((s.removeListener addr).listening t).addr = (s.listening t).addr := by
  unfold State.removeListener
  split
  · rename_i u _
    rcases eq_or_ne t u with rfl | htu
    · simp
    · simp [Function.update_of_ne htu]
  · exact ⟨rfl, rfl⟩

theorem removeListener_listeners (s : State A) (addr k : A) :
    (s.removeListener addr).listeners k = if k = addr then none else s.listeners k := by
  unfold State.removeListener
  split
  · simp [Function.update_apply]
  · rename_i hnone
    split
    · rename_i hk
      rw [hk, hnone]
    · rfl

theorem removeListener_frame (s : State A) (addr : A) :
    (s.removeListener addr).freshListening = s.freshListening ∧
      (s.removeListener addr).cancelled = s.cancelled := by
  unfold State.removeListener
  split <;> exact ⟨rfl, rfl⟩

/-- The insert moves the inserting task only. -/
theorem insertListener_listening (s : State A) (t : Nat) (addr : A) (u : Nat) :
    ((s.insertListener t addr).listening u).pc =
        (if u = t then .accepting false else (s.listening u).pc) ∧
      ((s.insertListener t addr).listening u).addr = (s.listening u).addr := by
  obtain ⟨hpc, haddr⟩ := removeListener_listening s addr u
  rcases eq_or_ne u t with rfl | hut
  · simp [State.insertListener, haddr]
  · simp [State.insertListener, hut, hpc, haddr]

theorem insertListener_listeners (s : State A) (t : Nat) (addr k : A) :
    (s.insertListener t addr).listeners k = if k = addr then some t else s.listeners k := by
  have h := removeListener_listeners s addr k
  rcases eq_or_ne k addr with rfl | hk
  · simp [State.insertListener]
  · simp only [State.insertListener, Function.update_of_ne hk, h, if_neg hk]

omit [DecidableEq A] in
theorem clearListeners_listening (s : State A) (t : Nat) :
    (s.clearListeners.listening t).pc = (s.listening t).pc ∧
      (s.clearListeners.listening t).addr = (s.listening t).addr := by
  simp only [State.clearListeners]
  split <;> exact ⟨rfl, rfl⟩

/-- How a listening task goes on, with the guard of each step. -/
inductive ListenMove (s : State A) (t : Nat) : Act A → ListenPc → Prop where
  | bindOk (hp : (s.listening t).pc = .binding) : ListenMove s t (.bindOk t) .insert
  | bindFails (hp : (s.listening t).pc = .binding) : ListenMove s t (.bindFails t) .inListenError
  | listenErrorReturned (hp : (s.listening t).pc = .inListenError) :
      ListenMove s t (.listenErrorReturned t) .failed
  | insertListener (hp : (s.listening t).pc = .insert) :
      ListenMove s t (.insertListener t) (.accepting false)
  | acceptNoAddr (hp : (s.listening t).pc = .accepting false) :
      ListenMove s t (.acceptNoAddr t) (.accepting false)
  | acceptFails (hp : (s.listening t).pc = .accepting false) :
      ListenMove s t (.acceptFails t) (.accepting true)
  | canceled {disabled} (hp : (s.listening t).pc = .accepting disabled)
      (hc : (s.listening t).cancelDropped = true) : ListenMove s t (.canceled t) .done

/-- What a step means for one listening task. -/
inductive OneListening (s s' : State A) (t : Nat) (a : Act A) : Prop where
  | same (hpc : (s'.listening t).pc = (s.listening t).pc)
      (haddr : (s'.listening t).addr = (s.listening t).addr)
  | spawned (addr : A) (ha : a = .listen addr) (ht : t = s.freshListening)
      (hl : s'.listening t = ⟨some addr, .binding, false⟩)
  | moved (pc : ListenPc) (hm : ListenMove s t a pc) (hpc : (s'.listening t).pc = pc)
      (haddr : (s'.listening t).addr = (s.listening t).addr)

omit [DecidableEq A] in
theorem OneListening.of_advance {u : Nat} {pc : ListenPc} (t : Nat) (hm : ListenMove s u a pc) :
    OneListening s (s.advance u pc) t a := by
  rcases eq_or_ne t u with rfl | htu
  · exact .moved pc hm (by simp [State.advance]) (by simp [State.advance])
  · exact .same (by simp [State.advance, Function.update_of_ne htu])
      (by simp [State.advance, Function.update_of_ne htu])

theorem step_oneListening (hstep : s.step a = some s') (t : Nat) : OneListening s s' t a := by
  cases State.step_cases hstep with
  | bindOk hp => exact .of_advance t (.bindOk hp)
  | bindFails hp => exact .of_advance t (.bindFails hp)
  | listenErrorReturned hp => exact .of_advance t (.listenErrorReturned hp)
  | acceptNoAddr hp => exact .of_advance t (.acceptNoAddr hp)
  | acceptFails hp => exact .of_advance t (.acceptFails hp)
  | canceled hp hc => exact .of_advance t (.canceled hp hc)
  | @listen addr =>
    rcases eq_or_ne t s.freshListening with rfl | ht
    · exact .spawned addr rfl rfl (by simp [State.listen])
    · exact .same (by simp [State.listen, Function.update_of_ne ht])
        (by simp [State.listen, Function.update_of_ne ht])
  | @cancelListen addr =>
    exact .same (removeListener_listening s addr t).1 (removeListener_listening s addr t).2
  | abort => exact .same (clearListeners_listening s t).1 (clearListeners_listening s t).2
  | @insertListener u addr hp _ =>
    obtain ⟨hpc, haddr⟩ := insertListener_listening s u addr t
    rcases eq_or_ne t u with rfl | htu
    · exact .moved _ (.insertListener hp) (by rw [hpc, if_pos rfl]) haddr
    · exact .same (by rw [hpc, if_neg htu]) haddr
  | connect | clearConnections | connected | accept => exact .same rfl rfl
  | @conn i b c =>
    obtain ⟨hl, -⟩ := access_listening (s.setConn i c) i (s.conns i).key ((s.conns i).regOp b)
    exact .same (by rw [hl]; rfl) (by rw [hl]; rfl)

theorem freshListening_step (hstep : s.step a = some s') :
    s'.freshListening = s.freshListening ∨
      (∃ addr, a = .listen addr) ∧ s'.freshListening = s.freshListening + 1 := by
  cases step_listen hstep with
  | other _ _ hf => exact .inl hf
  | listen addr => exact .inr ⟨⟨addr, rfl⟩, rfl⟩
  | cancelListen addr | insert _ addr => exact .inl (removeListener_frame s addr).1
  | abort | goto => exact .inl rfl

theorem ListenInv.fresh_step (h : ListenInv s) (hstep : s.step a = some s') (t : Nat)
    (ht : s'.freshListening ≤ t) : (s'.listening t).pc = .unborn := by
  have hle : s.freshListening ≤ t := by
    rcases freshListening_step hstep with hf | ⟨-, hf⟩ <;> omega
  have hold := h.fresh t hle
  cases step_oneListening hstep t with
  | same hpc => exact hpc.trans hold
  | spawned addr ha hfresh =>
    subst ha
    rcases freshListening_step hstep with hf | ⟨-, hf⟩
    · cases State.step_cases hstep with
      | listen => simp [State.listen] at hf
    · omega
  | moved pc hm =>
    cases hm with
    | bindOk hp | bindFails hp | listenErrorReturned hp | insertListener hp | acceptNoAddr hp
    | acceptFails hp | canceled hp => rw [hold] at hp; cases hp

theorem ListenInv.addr_step (h : ListenInv s) (hstep : s.step a = some s') (t : Nat) :
    (s'.listening t).pc ≠ .unborn → (s'.listening t).addr ≠ none := by
  have hold := h.addr t
  cases step_oneListening hstep t with
  | same hpc haddr => rw [hpc, haddr]; exact hold
  | spawned addr _ _ hl => rw [hl]; simp
  | moved pc hm _ haddr =>
    intro _
    rw [haddr]
    cases hm with
    | bindOk hp | bindFails hp | listenErrorReturned hp | insertListener hp | acceptNoAddr hp
    | acceptFails hp | canceled hp => exact hold (by rw [hp]; simp)

theorem reach_listenInv (hr : (machine A).Reach s) : ListenInv s :=
  hr.invariant ⟨fun _ _ => rfl, fun _ h => absurd rfl h⟩
    fun _ _ _ h hs => ⟨h.fresh_step hs, h.addr_step hs⟩

/-- An entry was there before, or is that of the task that inserts, and none that was dropped. -/
theorem listeners_step (hstep : s.step a = some s') {t : Nat} (hreg : s'.listeners addr = some t) :
    (s.listeners addr = some t ∧ a ≠ .abort ∧ a ≠ .cancelListen addr ∧
        ∀ u, a = .insertListener u → (s.listening u).addr ≠ some addr) ∨
      a = .insertListener t ∧ (s.listening t).pc = .insert ∧ (s.listening t).addr = some addr := by
  cases State.step_cases hstep with
  | @cancelListen addr' =>
    replace hreg : (s.removeListener addr').listeners addr = some t := hreg
    rw [removeListener_listeners] at hreg
    split at hreg
    · cases hreg
    · rename_i hne
      exact .inl ⟨hreg, by simp, by simpa using Ne.symm hne, by simp⟩
  | abort => cases hreg
  | @insertListener u addr' hp ha =>
    rw [insertListener_listeners] at hreg
    split at hreg
    · rename_i heq
      obtain rfl := Option.some.inj hreg
      exact .inr ⟨rfl, hp, heq ▸ ha⟩
    · rename_i hne
      refine .inl ⟨hreg, by simp, by simp, ?_⟩
      rintro v heq hv
      cases heq
      exact hne (Option.some.inj (hv.symm.trans ha))
  | @conn i b c =>
    obtain ⟨-, -, hr, -⟩ := access_listening (s.setConn i c) i (s.conns i).key ((s.conns i).regOp b)
    rw [hr] at hreg
    exact .inl ⟨hreg, by simp, by simp, by simp⟩
  | _ => exact .inl ⟨hreg, by simp, by simp, by simp⟩

/-- A clean address stays clean until it is listened on again. -/
theorem State.Clean.step (h : s.Clean addr) (ha : a ≠ .listen addr) (hstep : s.step a = some s') :
    s'.Clean addr := by
  obtain ⟨hnone, hpend⟩ := h
  constructor
  · refine Option.eq_none_iff_forall_ne_some.mpr fun t hreg => ?_
    rcases listeners_step hstep hreg with ⟨hold, -⟩ | ⟨-, hp, hta⟩
    · rw [hnone] at hold; cases hold
    · have hold := hpend t hta
      rw [hp] at hold; cases hold
  · intro t hta
    cases step_oneListening hstep t with
    | same hpc haddr => rw [hpc]; exact hpend t (haddr ▸ hta)
    | spawned addr' heq _ hl =>
      rw [hl] at hta
      obtain rfl := Option.some.inj hta
      exact absurd heq ha
    | moved pc hm hpc haddr =>
      rw [hpc]
      cases hm with
      | bindOk hp =>
        have hold := hpend t (haddr ▸ hta)
        rw [hp] at hold; cases hold
      | _ => rfl

/-- A cancel with no task on its way leaves the address clean. -/
theorem clean_of_cancelListen (hr : (machine A).Reach s) (hn : s.NonePending addr)
    (hstep : s.step (.cancelListen addr) = some s') : s'.Clean addr := by
  cases step_listen hstep with
  | other ha => exact absurd rfl (ha addr).2
  | goto t pc ha => exact absurd rfl (ha addr).2
  | cancelListen =>
    refine ⟨(removeListener_listeners s addr addr).trans (if_pos rfl), fun t => ?_⟩
    obtain ⟨hpc, haddr⟩ := removeListener_listening s addr t
    simp only [State.cancelListen, hpc, haddr]
    intro ht
    rcases lt_or_ge t s.freshListening with hlt | hge
    · exact hn t hlt ht
    · rw [(reach_listenInv hr).fresh t hge]; rfl

/-- An address is cancelled by a cancel and listened on by a `Listen`. -/
theorem cancelled_step (hstep : s.step a = some s') (h : s'.cancelled addr = true) :
    a = .cancelListen addr ∨ a ≠ .listen addr ∧ s.cancelled addr = true := by
  cases step_listen hstep with
  | other ha _ _ _ hc => exact .inr ⟨(ha addr).1, hc ▸ h⟩
  | listen addr' =>
    rcases eq_or_ne addr addr' with rfl | hne
    · simp [State.listen] at h
    · simp only [State.listen, Function.update_of_ne hne] at h
      exact .inr ⟨by simpa using hne.symm, h⟩
  | cancelListen addr' =>
    rcases eq_or_ne addr addr' with rfl | hne
    · exact .inl rfl
    · simp only [State.cancelListen, Function.update_of_ne hne, (removeListener_frame s addr').2] at h
      exact .inr ⟨by simp, h⟩
  | abort => exact .inr ⟨by simp, h⟩
  | goto t pc ha => exact .inr ⟨(ha addr).1, h⟩
  | insert t addr' => exact .inr ⟨by simp, (removeListener_frame s addr').2 ▸ h⟩

theorem cancelKept_path (hp : (machine A).Path CancelsSettled State.init s) (addr : A) :
    s.CancelKept addr := by
  have key : s.cancelled addr = true → s.Clean addr := by
    refine Machine.Path.invariant_of_reach
      (I := fun s => s.cancelled addr = true → s.Clean addr) hp nofun ?_
    intro s a s' hr hok h hs hc
    rcases cancelled_step hs hc with rfl | ⟨ha, hold⟩
    · exact clean_of_cancelListen hr hok hs
    · exact (h hold).step ha hs
  intro hc
  exact (key hc).kept hc

/-! ### A cancel that is lost -/

/-- Task `u` goes past its insert, or fails to bind, and nothing else changes for the tasks. -/
structure Settles (s s' : State A) (u : Nat) : Prop where
  settled : (s'.listening u).pc.pending = false
  same : ∀ t, t ≠ u → (s'.listening t).pc = (s.listening t).pc
  addr : ∀ t, (s'.listening t).addr = (s.listening t).addr
  fresh : s'.freshListening = s.freshListening
  cancelled : s'.cancelled = s.cancelled

theorem settles_insert {u : Nat} (hp : (s.listening u).pc = .insert)
    (ha : (s.listening u).addr = some addr) :
    s.step (.insertListener u) = some (s.insertListener u addr) ∧
      Settles s (s.insertListener u addr) u := by
  refine ⟨by simp [State.step, hp, ha], ?_, fun t ht => ?_, fun t => ?_, ?_, ?_⟩
  · rw [(insertListener_listening s u addr u).1, if_pos rfl]; rfl
  · rw [(insertListener_listening s u addr t).1, if_neg ht]
  · exact (insertListener_listening s u addr t).2
  · exact (removeListener_frame s addr).1
  · exact (removeListener_frame s addr).2

/-- Every task on its way can take a step that ends it. -/
theorem settles_one (h : ListenInv s) (addr : A) {u : Nat}
    (hp : (s.listening u).pc.pending = true) :
    ∃ a s', NotFor addr a ∧ s.step a = some s' ∧ Settles s s' u := by
  cases hpc : (s.listening u).pc with
  | binding =>
    refine ⟨.bindFails u, s.setListening u { s.listening u with pc := .inListenError }, by simp [NotFor],
      by simp [State.step, State.listenGoto, hpc], by simp [ListenPc.pending], fun t ht => ?_,
      fun t => ?_, rfl, rfl⟩
    · simp [Function.update_of_ne ht]
    · rcases eq_or_ne t u with rfl | ht
      · simp
      · simp [Function.update_of_ne ht]
  | insert =>
    obtain ⟨addr', haddr⟩ := Option.ne_none_iff_exists'.mp (h.addr u (by rw [hpc]; simp))
    obtain ⟨hs, hset⟩ := settles_insert hpc haddr
    exact ⟨_, _, by simp [NotFor], hs, hset⟩
  | _ => rw [hpc] at hp; cases hp

/-- Task `u` is where it was, and so are the commands. -/
structure Waits (s s' : State A) (u : Nat) : Prop where
  pc : (s'.listening u).pc = (s.listening u).pc
  addr : (s'.listening u).addr = (s.listening u).addr
  fresh : s'.freshListening = s.freshListening
  cancelled : s'.cancelled = s.cancelled

/-- All tasks but one can go past their insert while that one waits. -/
theorem settles_others (hr : (machine A).Reach s) (addr : A) (u n : Nat) :
    ∃ t, (machine A).Path (fun _ => NotFor addr) s t ∧ Waits s t u ∧
      ∀ v < n, v ≠ u → (t.listening v).pc.pending = false := by
  induction n with
  | zero => exact ⟨s, .refl, ⟨rfl, rfl, rfl, rfl⟩, by simp⟩
  | succ n ih =>
    obtain ⟨t, hp, hw, hset⟩ := ih
    have hdone : (n = u ∨ (t.listening n).pc.pending = false) →
        ∀ v < n + 1, v ≠ u → (t.listening v).pc.pending = false := by
      intro hn v hv hvu
      rcases Nat.lt_succ_iff_lt_or_eq.mp hv with hlt | rfl
      · exact hset v hlt hvu
      · exact hn.resolve_left hvu
    by_cases hn : n = u ∨ (t.listening n).pc.pending = false
    · exact ⟨t, hp, hw, hdone hn⟩
    · obtain ⟨hnu, hpend⟩ := not_or.mp hn
      have hrt : (machine A).Reach t := Machine.Path.trans hr (hp.mono fun _ _ _ => trivial)
      obtain ⟨a, t', ha, hs, hset'⟩ := settles_one (reach_listenInv hrt) addr (by simpa using hpend)
      refine ⟨t', hp.tail ha hs, ⟨?_, ?_, ?_, ?_⟩, fun v hv hvu => ?_⟩
      · rw [hset'.same u (Ne.symm hnu), hw.pc]
      · rw [hset'.addr u, hw.addr]
      · rw [hset'.fresh, hw.fresh]
      · rw [hset'.cancelled, hw.cancelled]
      · rcases Nat.lt_succ_iff_lt_or_eq.mp hv with hlt | rfl
        · rw [hset'.same v hlt.ne]; exact hset v hlt hvu
        · exact hset'.settled

/-- A task that is about to insert registers its handle, whatever was cancelled before. -/
theorem not_cancelKept_of_insert {u : Nat} (hr : (machine A).Reach s)
    (hc : s.cancelled addr = true) (hp : (s.listening u).pc = .insert)
    (ha : (s.listening u).addr = some addr)
    (hset : ∀ v < s.freshListening, v ≠ u → (s.listening v).pc.pending = false) :
    ∃ t, (machine A).Path (fun _ => NotFor addr) s t ∧ ¬ t.CancelKept addr := by
  obtain ⟨hs, hsettle⟩ := settles_insert hp ha
  have hr' : (machine A).Reach (s.insertListener u addr) :=
    hr.tail (a := .insertListener u) trivial hs
  refine ⟨_, Machine.Path.single (a := .insertListener u) (by simp [NotFor]) hs, fun hkept => ?_⟩
  refine hkept (hsettle.cancelled ▸ hc) (fun v => ?_) u ((hsettle.addr u).trans ha) ?_ ?_
  · rcases eq_or_ne v u with rfl | hvu
    · exact hsettle.settled
    · rw [hsettle.same v hvu]
      rcases lt_or_ge v s.freshListening with hlt | hge
      · exact hset v hlt hvu
      · rw [(reach_listenInv hr).fresh v hge]; rfl
  · rw [(insertListener_listening s u addr u).1, if_pos rfl]; rfl
  · rw [insertListener_listeners, if_pos rfl]

/-- The task binds first if it has to. -/
theorem not_cancelKept_of_pending {u : Nat} (hr : (machine A).Reach s)
    (hc : s.cancelled addr = true) (hp : (s.listening u).pc.pending = true)
    (ha : (s.listening u).addr = some addr)
    (hset : ∀ v < s.freshListening, v ≠ u → (s.listening v).pc.pending = false) :
    ∃ t, (machine A).Path (fun _ => NotFor addr) s t ∧ ¬ t.CancelKept addr := by
  cases hpc : (s.listening u).pc with
  | insert => exact not_cancelKept_of_insert hr hc hpc ha hset
  | binding =>
    have hs : s.step (.bindOk u) = some (s.setListening u { s.listening u with pc := .insert }) := by
      simp [State.step, State.listenGoto, hpc]
    obtain ⟨t, ht, hne⟩ := not_cancelKept_of_insert (u := u)
      (s := s.setListening u { s.listening u with pc := .insert })
      (hr.tail (a := .bindOk u) trivial hs) hc (by simp) (by simpa using ha) fun v hv hvu => by
        simpa [Function.update_of_ne hvu] using hset v hv hvu
    exact ⟨t, (Machine.Path.single (a := .bindOk u) (by simp [NotFor]) hs).trans ht, hne⟩
  | _ => rw [hpc] at hp; cases hp

/-- A cancel handled while a task for the address is on its way can be lost. -/
theorem not_cancelKept_of_early {u : Nat} (hr : (machine A).Reach s)
    (hs : s.step (.cancelListen addr) = some s') (hp : (s.listening u).pc.pending = true)
    (ha : (s.listening u).addr = some addr) :
    ∃ t, (machine A).Path (fun _ => NotFor addr) s' t ∧ ¬ t.CancelKept addr := by
  have hr' : (machine A).Reach s' := hr.tail (a := .cancelListen addr) trivial hs
  cases step_listen hs with
  | other hn => exact absurd rfl (hn addr).2
  | goto t pc hn => exact absurd rfl (hn addr).2
  | cancelListen =>
    obtain ⟨hpc, haddr⟩ := removeListener_listening s addr u
    obtain ⟨t, ht, hw, hset⟩ := settles_others hr' addr u s.freshListening
    have hrt : (machine A).Reach t := Machine.Path.trans hr' (ht.mono fun _ _ _ => trivial)
    have hfresh : t.freshListening = s.freshListening :=
      hw.fresh.trans (removeListener_frame s addr).1
    have hc : t.cancelled addr = true := by
      rw [hw.cancelled]; simp [State.cancelListen]
    obtain ⟨v, hv, hne⟩ := not_cancelKept_of_pending (u := u) hrt hc
      (by rw [hw.pc]; exact hpc ▸ hp) (hw.addr.trans (haddr.trans ha)) (hfresh ▸ hset)
    exact ⟨v, ht.trans hv, hne⟩

/-- A `CancelListen` is kept along every run whose cancels come when no task for their address is on
    its way to the insert; and a cancel is sure to be kept, whatever happens next short of another
    command for the address, only if it does. -/
theorem cancel_kept_iff (A : Type) [DecidableEq A] :
    (∀ s, (machine A).Path CancelsSettled State.init s → ∀ addr, s.CancelKept addr) ∧
    (∀ s s' addr, (machine A).Reach s → s.step (.cancelListen addr) = some s' →
      ((∀ t, (machine A).Path (fun _ => NotFor addr) s' t → t.CancelKept addr) ↔
        s.NonePending addr)) := by
  refine ⟨fun s hp addr => cancelKept_path hp addr, ?_⟩
  intro s s' addr hr hs
  constructor
  · intro hall u hu haddr
    by_contra hpend
    obtain ⟨t, ht, hne⟩ := not_cancelKept_of_early hr hs (by simpa using hpend) haddr
    exact hne (hall t ht)
  · intro hn t ht
    have hclean : t.Clean addr :=
      ht.invariant (I := fun s => s.Clean addr) (clean_of_cancelListen hr hn hs)
        fun _ _ _ ha h hs => h.step ha.1 hs
    exact hclean.kept

/-- The cancel is handled while the listening task binds. -/
theorem cancel_lost : ∃ s : State Nat, (machine Nat).Reach s ∧ ¬ s.CancelKept 7 := by
  obtain ⟨s, hr, hs⟩ := (machine Nat).reach_of_run
    [.listen 7, .cancelListen 7, .bindOk 0, .insertListener 0]
    (fun s => decide (s.cancelled 7 = true ∧ s.freshListening = 1 ∧
      s.listening 0 = ⟨some 7, .accepting false, false⟩ ∧ s.listeners 7 = some 0))
    (by decide +kernel)
  obtain ⟨hc, hfresh, h0, hl⟩ := of_decide_eq_true hs
  refine ⟨s, hr, fun hkept => hkept hc (fun t => ?_) 0 (by rw [h0]) (by rw [h0]; rfl) hl⟩
  rcases Nat.eq_zero_or_pos t with rfl | ht
  · rw [h0]; rfl
  · rw [(reach_listenInv hr).fresh t (by omega)]; rfl

/-- The cancel is handled in the accept loop. -/
theorem cancel_kept_accepting : ∃ s : State Nat, (machine Nat).Path CancelsSettled State.init s ∧
    s.cancelled 7 = true ∧ (s.listening 0).pc = .accepting false ∧ s.CancelKept 7 := by
  obtain ⟨s, hp, hs⟩ := (machine Nat).path_of_guarded_run CancelsSettled
    [.listen 7, .bindOk 0, .insertListener 0, .cancelListen 7]
    (fun s => decide (s.cancelled 7 = true ∧ (s.listening 0).pc = .accepting false))
    (by decide +kernel)
  obtain ⟨hc, hpc⟩ := of_decide_eq_true hs
  exact ⟨s, hp, hc, hpc, (cancel_kept_iff Nat).1 s hp 7⟩

end SocketManager.Manager
