import SocketManager.Manager.Listeners

/-! Who cancels a listener. The cancel handle of a listening task is an entry of `listeners`, under the
    address that was asked for, and dropping the entry is the cancel signal. The operating system
    refuses to bind an address twice, so two tasks cannot be registered under one address, with one
    exception: port 0 asks for any free port, and can be bound any number of times.

        task 0    Listen(h:0) ── bind ── insert ── accept loop ─────────────── canceled.closed()
        task 1                                     Listen(h:0) ── bind ── insert

    The insert of the second task replaces the entry of the first and drops its handle. -/

namespace SocketManager.Manager
variable {A : Type}

/-- The task holds a bound listener. -/
def ListenPc.bound : ListenPc → Bool
  | .insert | .accepting _ => true
  | _ => false

/-- The rules of `bind`: an address with a port cannot be bound while a listener on it is alive, and
    port 0 can always be bound. -/
def BindRule (portZero : A → Bool) (s : State A) : Act A → Prop
  | .bindOk t =>
    ∀ addr ∈ (s.listening t).addr, portZero addr = false → ∀ u < s.freshListening,
      (s.listening u).addr = some addr → (s.listening u).pc.bound = false
  | .bindFails t => ∀ addr ∈ (s.listening t).addr, portZero addr = false
  | _ => True

instance [DecidableEq A] {portZero : A → Bool} {s : State A} : ∀ a, Decidable (BindRule portZero s a)
  | .bindOk t =>
    inferInstanceAs (Decidable (∀ addr ∈ (s.listening t).addr, _ → ∀ u < s.freshListening, _ → _))
  | .bindFails t => inferInstanceAs (Decidable (∀ addr ∈ (s.listening t).addr, _))
  | .connect | .listen _ | .cancelListen _ | .abort | .clearConnections | .connected _ _
  | .listenErrorReturned _ | .insertListener _ | .accept _ _ | .acceptNoAddr _ | .acceptFails _
  | .canceled _ | .conn _ _ => .isTrue trivial

variable [DecidableEq A] {portZero : A → Bool} {s s' : State A} {a : Act A} {t : Nat}

/-- A cancel signal that fires with this step was asked for: `main` handles a `CancelListen` for the
    address of the task, or an `Abort`. -/
def OnRequest (s : State A) (a : Act A) : Prop :=
  ∀ t s', s.step a = some s' → (s.listening t).cancelDropped = false →
    (s'.listening t).cancelDropped = true →
    a = .abort ∨ ∃ addr, (s.listening t).addr = some addr ∧ a = .cancelListen addr

/-- A task that was to listen on port 0 registers its handle only when none is registered under the
    same address. -/
def InsertsAlone (portZero : A → Bool) (s : State A) : Act A → Prop
  | .insertListener t =>
    ∀ addr ∈ (s.listening t).addr, portZero addr = true → s.listeners addr = none
  | _ => True

instance : ∀ a, Decidable (InsertsAlone portZero s a)
  | .insertListener t =>
    inferInstanceAs (Decidable (∀ addr ∈ (s.listening t).addr, _ → s.listeners addr = none))
  | .connect | .listen _ | .cancelListen _ | .abort | .clearConnections | .connected _ _ | .bindOk _
  | .bindFails _ | .listenErrorReturned _ | .accept _ _ | .acceptNoAddr _ | .acceptFails _
  | .canceled _ | .conn _ _ => .isTrue trivial

/-! ### Which handles a step drops -/

theorem removeListener_dropped (s : State A) (addr : A) (t : Nat) :
    ((s.removeListener addr).listening t).cancelDropped = true ↔
      (s.listening t).cancelDropped = true ∨ s.listeners addr = some t := by
  unfold State.removeListener
  split
  · rename_i u hu
    rcases eq_or_ne t u with rfl | htu
    · simp [hu]
    · simp [hu, Function.update_of_ne htu, htu.symm]
  · rename_i hnone
    simp [hnone]

theorem insertListener_dropped (s : State A) (u : Nat) (addr : A) (t : Nat) :
    ((s.insertListener u addr).listening t).cancelDropped = true ↔
      (s.listening t).cancelDropped = true ∨ s.listeners addr = some t := by
  rw [← removeListener_dropped]
  rcases eq_or_ne t u with rfl | htu
  · simp [State.insertListener]
  · simp [State.insertListener, Function.update_of_ne htu]

/-- Only a registered handle is dropped, by one of three steps. -/
theorem dropped_step (hstep : s.step a = some s') (h : (s.listening t).cancelDropped = false)
    (h' : (s'.listening t).cancelDropped = true) :
    ∃ addr, s.listeners addr = some t ∧ (a = .abort ∨ a = .cancelListen addr ∨
      ∃ u, a = .insertListener u ∧ (s.listening u).pc = .insert ∧
        (s.listening u).addr = some addr) := by
  have hnew : ∀ {p : Prop}, ((s.listening t).cancelDropped = true ∨ p) → p := by
    rintro p (hd | hp)
    · rw [h] at hd; cases hd
    · exact hp
  cases step_listen hstep with
  | other _ hl => rw [hl, h] at h'; cases h'
  | listen addr =>
    rcases eq_or_ne t s.freshListening with rfl | ht
    · simp [State.listen] at h'
    · simp [State.listen, Function.update_of_ne ht, h] at h'
  | cancelListen addr =>
    exact ⟨addr, hnew ((removeListener_dropped s addr t).mp h'), .inr (.inl rfl)⟩
  | abort =>
    simp only [State.clearListeners] at h'
    split at h'
    · rename_i hreg
      obtain ⟨addr, -, hreg⟩ := Option.bind_eq_some_iff.mp hreg
      exact ⟨addr, hreg, .inl rfl⟩
    · rw [h] at h'; cases h'
  | goto u pc =>
    rcases eq_or_ne t u with rfl | htu
    · simp [h] at h'
    · simp [Function.update_of_ne htu, h] at h'
  | insert u addr hp ha =>
    exact ⟨addr, hnew ((insertListener_dropped s u addr t).mp h'), .inr (.inr ⟨u, rfl, hp, ha⟩)⟩

/-! ### The invariant -/

/-- Who is registered, and who can hold a listener on an address with a port. -/
structure HandlesInv (portZero : A → Bool) (s : State A) : Prop where
  registered : ∀ addr t, s.listeners addr = some t → (s.listening t).addr = some addr ∧
    (s.listening t).pc.inAccept = true ∧ (s.listening t).cancelDropped = false
  pending : ∀ t, (s.listening t).pc.pending = true → (s.listening t).cancelDropped = false
  single : ∀ addr, portZero addr = false → ∀ t u, (s.listening t).addr = some addr →
    (s.listening u).addr = some addr → (s.listening t).pc.bound = true →
    (s.listening u).pc.bound = true → t = u

/-- A listener is bound by the step that binds it. -/
theorem bound_step (hstep : s.step a = some s') (hb : (s'.listening t).pc.bound = true) :
    (s'.listening t).addr = (s.listening t).addr ∧
      ((s.listening t).pc.bound = true ∨ a = .bindOk t) := by
  cases step_oneListening hstep t with
  | same hpc haddr => exact ⟨haddr, .inl (hpc ▸ hb)⟩
  | spawned addr _ _ hl => rw [hl] at hb; cases hb
  | moved pc hm hpc haddr =>
    refine ⟨haddr, ?_⟩
    rw [hpc] at hb
    cases hm with
    | bindOk hp => exact .inr rfl
    | insertListener hp | acceptNoAddr hp | acceptFails hp => exact .inl (by rw [hp]; rfl)
    | bindFails | listenErrorReturned | canceled => cases hb

/-- A task on its way to the insert was so before, or was just spawned. -/
theorem pending_step (hstep : s.step a = some s') (hp : (s'.listening t).pc.pending = true) :
    (s.listening t).pc.pending = true ∨ (s'.listening t).cancelDropped = false := by
  cases step_oneListening hstep t with
  | same hpc => exact .inl (hpc ▸ hp)
  | spawned addr _ _ hl => exact .inr (by rw [hl])
  | moved pc hm hpc =>
    rw [hpc] at hp
    cases hm with
    | bindOk hp' => exact .inl (by rw [hp']; rfl)
    | _ => cases hp

theorem HandlesInv.pending_step (h : HandlesInv portZero s) (hstep : s.step a = some s')
    (hp : (s'.listening t).pc.pending = true) : (s'.listening t).cancelDropped = false := by
  rcases Manager.pending_step hstep hp with hold | hnew
  · by_contra hd
    obtain ⟨addr, hreg, -⟩ := dropped_step hstep (h.pending t hold) (by simpa using hd)
    have hacc := (h.registered addr t hreg).2.1
    cases hpc : (s.listening t).pc <;> simp [hpc, ListenPc.pending, ListenPc.inAccept] at hold hacc
  · exact hnew

/-- A task in its accept loop leaves it by its cancel signal only. -/
theorem inAccept_step (hl : ListenInv s) (hstep : s.step a = some s')
    (hp : (s.listening t).pc.inAccept = true) (hd : (s.listening t).cancelDropped = false) :
    (s'.listening t).addr = (s.listening t).addr ∧ (s'.listening t).pc.inAccept = true := by
  cases step_oneListening hstep t with
  | same hpc haddr => exact ⟨haddr, hpc ▸ hp⟩
  | spawned addr _ ht =>
    rw [hl.fresh t ht.ge] at hp; cases hp
  | moved pc hm hpc haddr =>
    refine ⟨haddr, ?_⟩
    rw [hpc]
    cases hm with
    | bindOk hp' | bindFails hp' | listenErrorReturned hp' => rw [hp'] at hp; cases hp
    | insertListener | acceptNoAddr | acceptFails => rfl
    | canceled _ hc => rw [hd] at hc; cases hc

/-- A registered task is in its accept loop, with its handle alive. -/
theorem HandlesInv.registered_step (h : HandlesInv portZero s) (hl : ListenInv s)
    (hstep : s.step a = some s') {addr : A} (hreg : s'.listeners addr = some t) :
    (s'.listening t).addr = some addr ∧ (s'.listening t).pc.inAccept = true ∧
      (s'.listening t).cancelDropped = false := by
  have hentry : ∀ {addr'}, s.listeners addr' = some t → (s.listening t).addr = some addr' :=
    fun hreg => (h.registered _ t hreg).1
  rcases listeners_step hstep hreg with ⟨hold, hab, hcl, hins⟩ | ⟨rfl, hp, ha⟩
  · obtain ⟨hta, hacc, hd⟩ := h.registered addr t hold
    obtain ⟨hta', hacc'⟩ := inAccept_step hl hstep hacc hd
    refine ⟨hta'.trans hta, hacc', ?_⟩
    by_contra hd'
    obtain ⟨addr', hreg', hwhy⟩ := dropped_step hstep hd (by simpa using hd')
    obtain rfl := Option.some.inj (hta.symm.trans (hentry hreg'))
    rcases hwhy with hwhy | hwhy | ⟨u, hwhy, -, hu⟩
    · exact hab hwhy
    · exact hcl hwhy
    · exact hins u hwhy hu
  · have hd := h.pending t (by rw [hp]; rfl)
    refine ⟨?_, ?_, ?_⟩
    · cases State.step_cases hstep with
      | insertListener _ _ => rw [(insertListener_listening s t _ t).2]; exact ha
    · cases State.step_cases hstep with
      | insertListener _ _ => rw [(insertListener_listening s t _ t).1, if_pos rfl]; rfl
    · by_contra hd'
      obtain ⟨addr', hreg', -⟩ := dropped_step hstep hd (by simpa using hd')
      have hacc := (h.registered addr' t hreg').2.1
      rw [hp] at hacc; cases hacc

theorem HandlesInv.single_step (h : HandlesInv portZero s) (hl : ListenInv s)
    (hb : BindRule portZero s a) (hstep : s.step a = some s') {addr : A}
    (hz : portZero addr = false) {t u : Nat} (hta : (s'.listening t).addr = some addr)
    (hua : (s'.listening u).addr = some addr) (ht : (s'.listening t).pc.bound = true)
    (hu : (s'.listening u).pc.bound = true) : t = u := by
  obtain ⟨hta', ht'⟩ := bound_step hstep ht
  obtain ⟨hua', hu'⟩ := bound_step hstep hu
  rw [hta'] at hta
  rw [hua'] at hua
  -- a bound task keeps the address from being bound again
  have hfree : ∀ {v w : Nat}, a = .bindOk v → (s.listening v).addr = some addr →
      (s.listening w).addr = some addr → (s.listening w).pc.bound = false := by
    rintro v w rfl hv hw
    rcases lt_or_ge w s.freshListening with hlt | hge
    · exact hb addr hv hz w hlt hw
    · rw [hl.fresh w hge]; rfl
  rcases ht' with ht' | rfl
  · rcases hu' with hu' | rfl
    · exact h.single addr hz t u hta hua ht' hu'
    · rw [hfree rfl hua hta] at ht'; cases ht'
  · rcases hu' with hu' | heq
    · rw [hfree rfl hta hua] at hu'; cases hu'
    · cases heq; rfl

theorem HandlesInv.step (h : HandlesInv portZero s) (hl : ListenInv s) (hb : BindRule portZero s a)
    (hstep : s.step a = some s') : HandlesInv portZero s' :=
  ⟨fun _ _ hreg => h.registered_step hl hstep hreg, fun _ hp => h.pending_step hstep hp,
    fun _ hz _ _ hta hua ht hu => h.single_step hl hb hstep hz hta hua ht hu⟩

/-! ### Every signal is asked for -/

omit [DecidableEq A] in
/-- The entry that the insert of a task replaces. -/
theorem HandlesInv.replaced (h : HandlesInv portZero s) {u : Nat} {addr : A}
    (hp : (s.listening u).pc = .insert) (ha : (s.listening u).addr = some addr)
    (hreg : s.listeners addr = some t) : portZero addr = true ∧ t ≠ u := by
  obtain ⟨hta, hacc, -⟩ := h.registered addr t hreg
  have htu : t ≠ u := by
    rintro rfl
    rw [hp] at hacc; cases hacc
  refine ⟨?_, htu⟩
  by_contra hz
  refine htu (h.single addr (by simpa using hz) t u hta ha ?_ (by rw [hp]; rfl))
  cases hpc : (s.listening t).pc <;> simp [hpc, ListenPc.inAccept, ListenPc.bound] at hacc ⊢

theorem onRequest_iff (h : HandlesInv portZero s) (hstep : s.step a = some s') :
    OnRequest s a ↔ InsertsAlone portZero s a := by
  constructor
  · intro hreq
    cases a with
    | insertListener u =>
      intro addr ha hz
      by_contra hne
      obtain ⟨t, hreg⟩ := Option.ne_none_iff_exists'.mp hne
      obtain ⟨-, -, hd⟩ := h.registered addr t hreg
      have hd' : (s'.listening t).cancelDropped = true := by
        cases State.step_cases hstep with
        | insertListener hp ha' =>
          obtain rfl := Option.some.inj (ha'.symm.trans ha)
          exact (insertListener_dropped s u _ t).mpr (.inr hreg)
      rcases hreq t s' hstep hd hd' with habs | ⟨_, -, habs⟩ <;> cases habs
    | _ => trivial
  · intro halone t s'' hs hd hd'
    obtain ⟨addr, hreg, rfl | rfl | ⟨u, rfl, hp, ha⟩⟩ := dropped_step hs hd hd'
    · exact .inl rfl
    · exact .inr ⟨addr, (h.registered addr t hreg).1, rfl⟩
    · rw [halone addr ha (h.replaced hp ha hreg).1] at hreg; cases hreg

/-- Along every run that keeps the rules of `bind`, the cancel signal of a listening task fires only on
    request if and only if no task for port 0 registers its handle in the place of another. -/
theorem canceled_on_request_iff (A : Type) [DecidableEq A] (portZero : A → Bool) (as : List (Act A))
    (hb : (machine A).Along (BindRule portZero) State.init as) :
    (machine A).Along OnRequest State.init as ↔
      (machine A).Along (InsertsAlone portZero) State.init as := by
  have h0 : HandlesInv portZero (State.init : State A) :=
    ⟨fun _ _ h => (by cases h), fun _ h => (by cases h), fun _ _ _ _ h => by cases h⟩
  refine Machine.Along.congr (I := fun s => (machine A).Reach s ∧ HandlesInv portZero s) ?_ ?_ hb
    ⟨.refl, h0⟩
  · rintro s a s' hok ⟨hr, h⟩ hs
    exact ⟨hr.tail trivial hs, h.step (reach_listenInv hr) hok hs⟩
  · rintro s a s' - ⟨-, h⟩ hs
    exact onRequest_iff h hs

/-- Addresses as a host and a port. The listener on port 0 is cancelled before the next one is asked
    for, and the second `Listen` on port 7 fails. -/
def listenInTurn : List (Act (Nat × Nat)) :=
  [.listen (1, 0), .bindOk 0, .insertListener 0, .cancelListen (1, 0), .canceled 0, .listen (1, 0),
    .bindOk 1, .insertListener 1, .listen (1, 7), .bindOk 2, .listen (1, 7), .bindFails 3,
    .insertListener 2]

theorem canceled_on_request_inTurn :
    (machine (Nat × Nat)).Along (BindRule fun a => a.2 == 0) State.init listenInTurn ∧
      (machine (Nat × Nat)).Along OnRequest State.init listenInTurn := by
  have hb : (machine (Nat × Nat)).Along (BindRule fun a => a.2 == 0) State.init listenInTurn := by
    decide +kernel
  exact ⟨hb, (canceled_on_request_iff (Nat × Nat) (fun a => a.2 == 0) listenInTurn hb).mpr
    (by decide +kernel)⟩

/-- Two `Listen`s on port 0, the second one up to its insert. -/
def listenTwice : List (Act (Nat × Nat)) :=
  [.listen (1, 0), .bindOk 0, .insertListener 0, .listen (1, 0), .bindOk 1]

/-- The insert of the second task cancels the first. -/
theorem second_listen_cancels :
    (machine (Nat × Nat)).Along (BindRule fun a => a.2 == 0) State.init
        (listenTwice ++ [.insertListener 1]) ∧
      ¬ (machine (Nat × Nat)).Along OnRequest State.init (listenTwice ++ [.insertListener 1]) := by
  refine ⟨by decide +kernel, ?_⟩
  have heval : ((machine (Nat × Nat)).run State.init listenTwice).any (fun s =>
      decide ((s.listening 0).pc = .accepting false ∧ (s.listening 0).cancelDropped = false) &&
      (s.step (.insertListener 1)).any fun s' => (s'.listening 0).cancelDropped) = true := by
    decide +kernel
  obtain ⟨s, hrun, hs⟩ := (Option.any_eq_true _ _).mp heval
  obtain ⟨hnow, hnext⟩ := (Bool.and_eq_true _ _).mp hs
  obtain ⟨-, hd⟩ := of_decide_eq_true hnow
  obtain ⟨s', hstep, hd'⟩ := (Option.any_eq_true _ _).mp hnext
  refine Machine.not_along hrun hstep fun h => ?_
  rcases h 0 s' hstep hd hd' with habs | ⟨_, -, habs⟩ <;> cases habs

end SocketManager.Manager
