import Mathlib.Data.List.ReduceOption
import SocketManager.Manager.Listeners
import SocketManager.Manager.Registry

/-! The accept loop against the results of `accept()`. A listening task is run on a sequence of
    results; a run may interleave it with everything else the manager does.

        Ok(stream)  ─▶ accepted, handed to `handle_connection` if its addresses can be read
        Err(_)      ─▶ does not match the pattern: the branch is disabled in this `select!`

    The other branch (`canceled.closed()`) has a pattern that always matches, so it stays enabled, the
    `else` branch never runs, and the `select!` does not end before the listener is cancelled: the
    streams behind an error are never taken. -/

namespace SocketManager.Manager
variable {A : Type}

/-- What `listener.accept()` gives: a stream, with its addresses if they can be read, or an error. -/
inductive AcceptResult (A : Type) where
  | stream (addrs : Option (A × A))
  | error
  deriving DecidableEq

/-- The stream of a result. -/
def AcceptResult.stream? : AcceptResult A → Option (Option (A × A))
  | .stream addrs => some addrs
  | .error => none

/-- The streams of a sequence of results. -/
def streams (rs : List (AcceptResult A)) : List (Option (A × A)) := rs.filterMap AcceptResult.stream?

/-- The result of `accept()` that a step of listening task `t` takes. -/
def Act.takes (t : Nat) : Act A → Option (AcceptResult A)
  | .accept u key => if u = t then some (.stream (some key)) else none
  | .acceptNoAddr u => if u = t then some (.stream none) else none
  | .acceptFails u => if u = t then some .error else none
  | _ => none

variable (A) in
/-- The manager, with the results that task `t` will get and what it has done with those it got. -/
structure Served where
  state : State A
  pending : List (AcceptResult A)
  accepted : List (Option (A × A))
  /-- The address pairs of the connections made by `handle_connection`. -/
  handed : List (A × A)

/-- The address pair of the connection that a step has made, if any. -/
def newKey (s s' : State A) : Option (A × A) :=
  if s'.fresh = s.fresh then none else (s'.conns s.fresh).key

variable [DecidableEq A]

/-- A step of the manager; a step of task `t` in its accept branch takes the next result. -/
def Served.step (t : Nat) (u : Served A) (a : Act A) : Option (Served A) :=
  match a.takes t, u.pending with
  | none, _ => (u.state.step a).map fun s => { u with state := s }
  | some r, r' :: rest =>
    if r = r' then
      (u.state.step a).map fun s =>
        ⟨s, rest, u.accepted ++ r.stream?.toList, u.handed ++ (newKey u.state s).toList⟩
    else none
  | some _, [] => none

/-- The manager from `s` on, with the results task `t` will get. -/
def serving (s : State A) (t : Nat) (rs : List (AcceptResult A)) : Machine (Served A) (Act A) :=
  ⟨⟨s, rs, [], []⟩, Served.step t⟩

/-- Task `t` is not cancelled. -/
def NotCanceled (t : Nat) (_ : Served A) (a : Act A) : Prop := a ≠ .canceled t

instance (t : Nat) (u : Served A) (a : Act A) : Decidable (NotCanceled t u a) :=
  inferInstanceAs (Decidable (a ≠ _))

/-- No stream comes behind an error. -/
def NoStreamAfterError (rs : List (AcceptResult A)) : Prop :=
  ∀ pre post, rs = pre ++ .error :: post → streams post = []

variable {s s' : State A} {a : Act A} {t : Nat} {u v : Served A} {rs : List (AcceptResult A)}

/-! ### The accept branch -/

/-- What a step of the manager means for a task in its accept loop. -/
inductive AcceptStep (s s' : State A) (t : Nat) (disabled : Bool) (a : Act A) : Prop where
  | other (ha : a.takes t = none) (hpc : (s'.listening t).pc = .accepting disabled)
  | stream (addrs : Option (A × A)) (ha : a.takes t = some (.stream addrs)) (hd : disabled = false)
      (hpc : (s'.listening t).pc = .accepting false) (hnew : newKey s s' = addrs)
  | error (ha : a.takes t = some .error) (hd : disabled = false)
      (hpc : (s'.listening t).pc = .accepting true) (hnew : newKey s s' = none)

omit [DecidableEq A] in
/-- The task itself goes on. -/
theorem advance_self {pc : ListenPc} : ((s.advance t pc).listening t).pc = pc := by
  rw [State.advance, State.setListening_listening, Function.update_self]

omit [DecidableEq A] in
theorem key_accept {c c' : Conn A} {key : A × A} (h : c.step (.accept key) = some c') :
    c'.key = some key := by
  simp only [Conn.step] at h
  split at h
  · obtain rfl := Option.some.inj h; rfl
  · cases h

/-- A step that takes none of its results leaves the task in its loop. -/
theorem accepting_of_takes {d : Bool} (hi : ListenInv s) (h : s.step a = some s')
    (hpc : (s.listening t).pc = .accepting d) (ha : a ≠ .canceled t) (ht : a.takes t = none) :
    (s'.listening t).pc = .accepting d := by
  cases step_oneListening h t with
  | same hsame => exact hsame.trans hpc
  | spawned _ _ hfresh =>
    rw [hi.fresh t hfresh.ge] at hpc; cases hpc
  | moved pc hm =>
    cases hm with
    | acceptNoAddr | acceptFails => simp [Act.takes] at ht
    | canceled => exact absurd rfl ha
    | bindOk hp | bindFails hp | listenErrorReturned hp | insertListener hp =>
      rw [hp] at hpc; cases hpc

theorem step_acceptStep {d : Bool} (hi : ListenInv s) (h : s.step a = some s')
    (hpc : (s.listening t).pc = .accepting d) (ha : a ≠ .canceled t) : AcceptStep s s' t d a := by
  by_cases ht : a.takes t = none
  · exact .other ht (accepting_of_takes hi h hpc ha ht)
  have henabled : (s.listening t).pc = .accepting false → d = false := by
    intro hp
    rw [hp] at hpc; cases hpc; rfl
  cases State.step_cases h with
  | @accept w key c hp _ hc =>
    obtain rfl : w = t := by simpa [Act.takes] using ht
    refine .stream (some key) (by simp [Act.takes]) (henabled hp) hp ?_
    have hne : s.fresh + 1 ≠ s.fresh := Nat.succ_ne_self _
    simp only [newKey, State.addConn_fresh, if_neg hne, State.addConn_conns, Function.update_self]
    exact key_accept hc
  | @acceptNoAddr w hp =>
    obtain rfl : w = t := by simpa [Act.takes] using ht
    exact .stream none (by simp [Act.takes]) (henabled hp) advance_self (if_pos rfl)
  | @acceptFails w hp =>
    obtain rfl : w = t := by simpa [Act.takes] using ht
    exact .error (by simp [Act.takes]) (henabled hp) advance_self (if_pos rfl)
  | bindOk | bindFails | listenErrorReturned | canceled | listen | cancelListen | abort
  | insertListener | connect | connected | clearConnections | conn => exact absurd rfl ht

/-! ### The run of a listening task -/

/-- What has happened to the results so far: those taken are accounted for, and an error among them is
    the last one and has disabled the branch. -/
structure ServedInv (rs : List (AcceptResult A)) (t : Nat) (u : Served A) : Prop where
  reach : (machine A).Reach u.state
  taken : ∃ taken, rs = taken ++ u.pending ∧ u.accepted = streams taken ∧
    u.handed = (streams taken).reduceOption ∧
    (((u.state.listening t).pc = .accepting false ∧ .error ∉ taken) ∨
      ((u.state.listening t).pc = .accepting true ∧ ∃ pre, taken = pre ++ [.error] ∧ .error ∉ pre))

omit [DecidableEq A] in
theorem streams_append (rs rs' : List (AcceptResult A)) :
    streams (rs ++ rs') = streams rs ++ streams rs' :=
  List.filterMap_append

omit [DecidableEq A] in
theorem streams_concat (rs : List (AcceptResult A)) (r : AcceptResult A) :
    streams (rs ++ [r]) = streams rs ++ r.stream?.toList := by
  rw [streams_append]
  cases r <;> rfl

/-- What a step does to the record. -/
inductive ServedStep (t : Nat) (u : Served A) (a : Act A) : Served A → Prop where
  | other {s : State A} (hs : u.state.step a = some s) (ha : a.takes t = none) :
      ServedStep t u a { u with state := s }
  | take {s : State A} {r : AcceptResult A} {rest : List (AcceptResult A)}
      (hs : u.state.step a = some s) (ha : a.takes t = some r) (hp : u.pending = r :: rest) :
      ServedStep t u a
        ⟨s, rest, u.accepted ++ r.stream?.toList, u.handed ++ (newKey u.state s).toList⟩

theorem served_cases (h : u.step t a = some v) : ServedStep t u a v := by
  unfold Served.step at h
  split at h
  · rename_i hnone
    obtain ⟨s, hs, rfl⟩ := Option.map_eq_some_iff.mp h
    exact .other hs hnone
  · rename_i r r' rest hsome hp
    split at h
    · rename_i hr
      obtain ⟨s, hs, rfl⟩ := Option.map_eq_some_iff.mp h
      exact .take hs hsome (hr ▸ hp)
    · cases h
  · cases h

/-- A disabled branch takes nothing. -/
theorem ServedInv.disabled (h : ServedInv rs t u) (ha : NotCanceled t u a)
    (hpc : (u.state.listening t).pc = .accepting true) (hs : u.step t a = some v) :
    a.takes t = none ∧ (v.state.listening t).pc = .accepting true := by
  have hi := reach_listenInv h.reach
  cases served_cases hs with
  | other hstep hnone =>
    cases step_acceptStep hi hstep hpc ha with
    | other _ hpc' => exact ⟨hnone, hpc'⟩
    | stream _ hsome => rw [hnone] at hsome; cases hsome
    | error hsome => rw [hnone] at hsome; cases hsome
  | take hstep hsome _ =>
    cases step_acceptStep hi hstep hpc ha with
    | other hnone => rw [hsome] at hnone; cases hnone
    | stream _ _ hd => cases hd
    | error _ hd => cases hd

/-- An enabled branch takes the next result. -/
theorem ServedInv.enabled (h : ServedInv rs t u) (ha : NotCanceled t u a)
    (hpc : (u.state.listening t).pc = .accepting false) {s : State A} {r : AcceptResult A}
    (hs : u.state.step a = some s) (hsome : a.takes t = some r) :
    newKey u.state s = r.stream?.join ∧
      (s.listening t).pc = .accepting (decide (r = .error)) := by
  cases step_acceptStep (reach_listenInv h.reach) hs hpc ha with
  | other hnone => rw [hsome] at hnone; cases hnone
  | stream _ hr _ hpc' hnew =>
    rw [hsome] at hr
    cases hr
    exact ⟨hnew, hpc'⟩
  | error hr _ hpc' hnew =>
    rw [hsome] at hr
    cases hr
    exact ⟨hnew, hpc'⟩

theorem ServedInv.step (h : ServedInv rs t u) (ha : NotCanceled t u a)
    (hs : u.step t a = some v) : ServedInv rs t v := by
  obtain ⟨taken, hrs, hacc, hhand, hcase⟩ := h.taken
  rcases hcase with ⟨hpc, herr⟩ | ⟨hpc, hlast⟩
  · cases served_cases hs with
    | other hstep hnone =>
      refine ⟨h.reach.tail trivial hstep, taken, hrs, hacc, hhand, .inl ⟨?_, herr⟩⟩
      cases step_acceptStep (reach_listenInv h.reach) hstep hpc ha with
      | other _ hpc' => exact hpc'
      | stream _ hsome => rw [hnone] at hsome; cases hsome
      | error hsome => rw [hnone] at hsome; cases hsome
    | @take s r rest hstep hsome hp =>
      obtain ⟨hnew, hpc'⟩ := h.enabled ha hpc hstep hsome
      refine ⟨h.reach.tail trivial hstep, taken ++ [r], ?_, ?_, ?_, ?_⟩
      · rw [hrs, hp, List.append_assoc]; rfl
      · rw [streams_concat, hacc]
      · rw [streams_concat, List.reduceOption_append, hhand, hnew]
        cases r with
        | stream addrs => cases addrs <;> rfl
        | error => rfl
      · cases r with
        | stream addrs => exact .inl ⟨hpc', by simp [herr]⟩
        | error => exact .inr ⟨hpc', taken, rfl, herr⟩
  · obtain ⟨hnone, hpc'⟩ := h.disabled ha hpc hs
    cases served_cases hs with
    | other hstep _ => exact ⟨h.reach.tail trivial hstep, taken, hrs, hacc, hhand, .inr ⟨hpc', hlast⟩⟩
    | take _ hsome _ => rw [hnone] at hsome; cases hsome

theorem servedInv_path (hr : (machine A).Reach s) (hpc : (s.listening t).pc = .accepting false)
    (hp : (serving s t rs).Path (NotCanceled t) (serving s t rs).init u) : ServedInv rs t u := by
  refine hp.invariant (I := ServedInv rs t) ⟨hr, [], rfl, rfl, rfl, .inl ⟨hpc, by simp⟩⟩ ?_
  intro v a w ha hv hs
  exact hv.step ha hs

/-! ### Which sequences are served -/

omit [DecidableEq A] in
/-- The first error decides. -/
theorem noStreamAfterError_append {pre post : List (AcceptResult A)} (hpre : .error ∉ pre) :
    NoStreamAfterError (pre ++ .error :: post) ↔ streams post = [] := by
  constructor
  · intro h
    exact h pre post rfl
  · intro h pre' post' heq
    rcases List.append_eq_append_iff.mp heq with ⟨mid, rfl, hpost⟩ | ⟨mid, rfl, hpost⟩
    · cases mid with
      | nil =>
        obtain rfl := (List.cons.inj hpost).2
        exact h
      | cons r mid =>
        have hsplit : post = mid ++ [.error] ++ post' := by
          rw [List.append_assoc]; exact (List.cons.inj hpost).2
        rw [hsplit, streams_append] at h
        exact (List.append_eq_nil_iff.mp h).2
    · cases mid with
      | nil =>
        obtain rfl := (List.cons.inj hpost).2
        exact h
      | cons r mid =>
        -- an earlier error would be in front of the first one
        obtain rfl := (List.cons.inj hpost).1
        exact absurd (List.mem_append_right _ List.mem_cons_self) hpre

omit [DecidableEq A] in
theorem noStreamAfterError_of_not_mem (h : .error ∉ rs) : NoStreamAfterError rs := by
  rintro pre post rfl
  exact absurd (List.mem_append_right _ List.mem_cons_self) h

/-- When the loop takes no more, all streams were accepted and handed on unless one is left behind the
    error that stopped it. -/
theorem ServedInv.served_iff (h : ServedInv rs t u)
    (hend : u.pending = [] ∨ (u.state.listening t).pc ≠ .accepting false) :
    (u.accepted = streams rs ∧ u.handed = (streams rs).reduceOption) ↔ NoStreamAfterError rs := by
  obtain ⟨taken, rfl, hacc, hhand, hcase⟩ := h.taken
  rcases hcase with ⟨hpc, herr⟩ | ⟨-, pre, rfl, herr⟩
  · have hnil : u.pending = [] := hend.resolve_right (not_not_intro hpc)
    rw [hnil, List.append_nil]
    exact ⟨fun _ => noStreamAfterError_of_not_mem herr, fun _ => ⟨hacc, hhand⟩⟩
  · have hsplit : pre ++ [.error] ++ u.pending = pre ++ .error :: u.pending := by simp
    rw [streams_append, hacc, hhand, List.reduceOption_append, hsplit, noStreamAfterError_append herr]
    constructor
    · rintro ⟨hall, -⟩
      simpa using hall
    · intro hnone
      rw [hnone]
      simp [List.reduceOption_nil]

/-! ### The loop goes on while its branch is enabled -/

omit [DecidableEq A] in
/-- A connection that has not begun does nothing by itself. -/
theorem Conn.Move.unborn {c c' : Conn A} {b : ConnAct A} (hm : c.Move b c') (hp : c.pc = .unborn)
    (hb : b.own = true ∨ b = .dropStopper ∨ ∃ key, b = .connected key) : c'.pc = .unborn := by
  cases hm with
  | task h =>
    cases h with
    | connect _ | accept _ _ => rcases hb with h | h | ⟨_, h⟩ <;> cases h
    | connected _ hp' | connectFails hp' | onConnect hp' | configured hp' | unconfigured hp'
    | spawnWriter hp' | spawnReader hp' | insert hp' | remove hp' | closing hp' | errorReturned hp'
    | connectOk hp' | connectErr hp' | remoteReturned hp' | remoteReturnedLast hp'
    | closeReturned hp' | joinStop hp' | writerPolledAgain hp' | writerOk hp' | writerOkLast hp'
    | writerErr hp' | readerPolledAgain hp' | readerOk hp' | readerErr hp' =>
      rw [hp] at hp'; cases hp'
  | user h => cases h <;> exact hp
  | msg hs => exact hp
  | reader h => exact hp
  | writer h => exact hp

theorem removeListener_fresh (addr : A) : (s.removeListener addr).fresh = s.fresh := by
  unfold State.removeListener
  split <;> rfl

/-- An access to the registry moves no connection. -/
theorem access_pc (s : State A) (i : Nat) (key : Option (A × A)) (op : RegOp) (j : Nat) :
    ((s.access i key op).conns j).pc = (s.conns j).pc ∧ (s.access i key op).fresh = s.fresh := by
  have hrem : ∀ k, ((s.remove k).conns j).pc = (s.conns j).pc := by
    intro k
    rw [State.remove_conns]
    split <;> rfl
  unfold State.access
  split
  · exact ⟨hrem _, rfl⟩
  · exact ⟨hrem _, rfl⟩
  · exact ⟨hrem _, rfl⟩
  · exact ⟨rfl, rfl⟩

omit [DecidableEq A] in
theorem update_unborn {i : Nat} {c : Conn A} (hc : (s.conns i).pc = .unborn → c.pc = .unborn) (j : Nat)
    (hj : (s.conns j).pc = .unborn) : ((s.setConn i c).conns j).pc = .unborn := by
  rw [State.setConn_conns]
  rcases eq_or_ne j i with rfl | hji
  · rw [Function.update_self]; exact hc hj
  · rw [Function.update_of_ne hji]; exact hj

/-- Connections begin in the order of their numbers. -/
theorem step_fresh (h : s.step a = some s') :
    (s'.fresh = s.fresh + 1 ∧ ∃ c, s'.conns = Function.update s.conns s.fresh c) ∨
      (s'.fresh = s.fresh ∧ ∀ i, (s.conns i).pc = .unborn → (s'.conns i).pc = .unborn) := by
  cases State.step_cases h with
  | @connect c | @accept _ _ c => exact .inl ⟨rfl, c, rfl⟩
  | listen | abort | bindOk | bindFails | listenErrorReturned | acceptNoAddr | acceptFails | canceled =>
    exact .inr ⟨rfl, fun _ hi => hi⟩
  | @cancelListen addr | @insertListener _ addr =>
    refine .inr ⟨removeListener_fresh addr, fun i hi => ?_⟩
    exact (congrArg (fun f : Nat → Conn A => (f i).pc) (conns_removeListener addr).1).trans hi
  | clearConnections =>
    refine .inr ⟨rfl, fun i hi => ?_⟩
    rw [State.clearConnections_conns]
    split <;> exact hi
  | @connected i key c _ hc =>
    refine .inr ⟨rfl, update_unborn fun hi => ?_⟩
    exact (Conn.step_cases hc).unborn hi (.inr (.inr ⟨key, rfl⟩))
  | conn hown hc =>
    refine .inr ⟨(access_pc _ _ _ _ 0).2, fun j hj => ?_⟩
    rw [(access_pc _ _ _ _ j).1]
    exact update_unborn (fun hi => (Conn.step_cases hc).unborn hi (.inl hown)) j hj

theorem fresh_unborn (hr : (machine A).Reach s) : ∀ i, s.fresh ≤ i → (s.conns i).pc = .unborn := by
  refine hr.invariant (I := fun s => ∀ i, s.fresh ≤ i → (s.conns i).pc = .unborn) (fun _ _ => rfl) ?_
  intro v a w hv hs i hi
  rcases step_fresh hs with ⟨hf, c, hc⟩ | ⟨hf, hkeep⟩
  · have hne : i ≠ v.fresh := by omega
    rw [hc, Function.update_of_ne hne]
    exact hv i (by omega)
  · exact hkeep i (hv i (by omega))

/-- With its branch enabled the loop can take the next result; a stream comes with addresses no open
    stream has. -/
theorem ServedInv.goes_on (h : ServedInv rs t u) {r : AcceptResult A} {rest : List (AcceptResult A)}
    (hp : u.pending = r :: rest) (hpc : (u.state.listening t).pc = .accepting false)
    (hfree : ∀ key, r = .stream (some key) → u.state.keyFree key = true) :
    ∃ a v, NotCanceled t u a ∧ u.step t a = some v ∧ v.pending = rest := by
  have hact : ∃ a s, NotCanceled t u a ∧ a.takes t = some r ∧ u.state.step a = some s := by
    cases r with
    | stream addrs =>
      cases addrs with
      | some key =>
        have hborn : (u.state.conns u.state.fresh).step (.accept key) =
            some ((u.state.conns u.state.fresh).handleConnection key true) := by
          simp only [Conn.step, fresh_unborn h.reach _ le_rfl, if_true]
        refine ⟨.accept t key, u.state.addConn ((u.state.conns u.state.fresh).handleConnection key true),
          by simp [NotCanceled], by simp [Act.takes], ?_⟩
        simp only [State.step, hpc, hfree key rfl, and_self, if_true, hborn, Option.map_some]
      | none =>
        refine ⟨.acceptNoAddr t, u.state.setListening t { u.state.listening t with
          pc := .accepting false }, by simp [NotCanceled], by simp [Act.takes], ?_⟩
        simp only [State.step, State.listenGoto, hpc, if_true]
    | error =>
      refine ⟨.acceptFails t, u.state.setListening t { u.state.listening t with
        pc := .accepting true }, by simp [NotCanceled], by simp [Act.takes], ?_⟩
      simp only [State.step, State.listenGoto, hpc, if_true]
  obtain ⟨a, s, hne, ha, hs⟩ := hact
  refine ⟨a, ⟨s, rest, u.accepted ++ r.stream?.toList, u.handed ++ (newKey u.state s).toList⟩, hne,
    ?_, rfl⟩
  simp only [Served.step, ha, hp, if_true, hs, Option.map_some]

/-- The accept loop on a sequence of results, whatever else the manager does meanwhile: it takes the
    next result as long as its branch is enabled, and when it takes no more, every stream was accepted
    and, with readable addresses, handed to `handle_connection` exactly if no stream comes behind an
    error. -/
theorem accept_loop_serves_iff (A : Type) [DecidableEq A] (s : State A) (t : Nat)
    (rs : List (AcceptResult A)) (u : Served A) (hr : (machine A).Reach s)
    (hpc : (s.listening t).pc = .accepting false)
    (hp : (serving s t rs).Path (NotCanceled t) (serving s t rs).init u) :
    (∀ r rest, u.pending = r :: rest → (u.state.listening t).pc = .accepting false →
      (∀ key, r = .stream (some key) → u.state.keyFree key = true) →
        ∃ a v, NotCanceled t u a ∧ u.step t a = some v ∧ v.pending = rest) ∧
    (u.pending = [] ∨ (u.state.listening t).pc ≠ .accepting false →
      ((u.accepted = streams rs ∧ u.handed = (streams rs).reduceOption) ↔ NoStreamAfterError rs)) := by
  have hi := servedInv_path hr hpc hp
  exact ⟨fun r rest hpend hacc hfree => hi.goes_on hpend hacc hfree, hi.served_iff⟩

/-- Address `7` is listened on. -/
def listenOn : List (Act Nat) := [.listen 7, .bindOk 0, .insertListener 0]

theorem accept_loop_serves_iff_twoStreams :
    ∃ (s : State Nat) (u : Served Nat), (machine Nat).Reach s ∧
      (serving s 0 [.stream (some (7, 1)), .stream none]).Path (NotCanceled 0)
        (serving s 0 [.stream (some (7, 1)), .stream none]).init u ∧
      u.accepted = [some (7, 1), none] ∧ u.handed = [(7, 1)] := by
  obtain ⟨s, hr, hp⟩ := (machine Nat).reach_of_run listenOn
    (fun s => decide ((s.listening 0).pc = .accepting false) &&
      (serving s 0 [.stream (some (7, 1)), .stream none]).reaches (NotCanceled 0)
        [.accept 0 (7, 1), .acceptNoAddr 0] (fun u => decide (u.pending = []))
        (serving s 0 [.stream (some (7, 1)), .stream none]).init) (by decide +kernel)
  rw [Bool.and_eq_true] at hp
  obtain ⟨u, hpath, hu⟩ := Machine.path_of_reaches hp.2
  have hpend : u.pending = [] := of_decide_eq_true hu
  obtain ⟨-, hiff⟩ := accept_loop_serves_iff Nat s 0 _ u hr (of_decide_eq_true hp.1) hpath
  obtain ⟨hacc, hhand⟩ := (hiff (.inl hpend)).mpr (noStreamAfterError_of_not_mem (by simp))
  exact ⟨s, u, hr, hpath, hacc, hhand⟩

/-- After one error the stream behind it is never accepted, in no run that goes on from there. -/
theorem stream_after_error_lost :
    ∃ (s : State Nat) (u : Served Nat), (machine Nat).Reach s ∧
      (s.listening 0).pc = .accepting false ∧
      (serving s 0 [.error, .stream (some (7, 1))]).Path (NotCanceled 0)
        (serving s 0 [.error, .stream (some (7, 1))]).init u ∧
      ∀ v, (serving s 0 [.error, .stream (some (7, 1))]).Path (NotCanceled 0) u v →
        v.pending = [.stream (some (7, 1))] ∧ v.accepted = [] ∧ v.handed = [] := by
  obtain ⟨s, hr, hp⟩ := (machine Nat).reach_of_run listenOn
    (fun s => decide ((s.listening 0).pc = .accepting false) &&
      (serving s 0 [.error, .stream (some (7, 1))]).reaches (NotCanceled 0) [.acceptFails 0]
        (fun u => decide ((u.state.listening 0).pc = .accepting true ∧ u.pending =
          [.stream (some (7, 1))] ∧ u.accepted = [] ∧ u.handed = []))
        (serving s 0 [.error, .stream (some (7, 1))]).init) (by decide +kernel)
  rw [Bool.and_eq_true] at hp
  obtain ⟨u, hpath, hu⟩ := Machine.path_of_reaches hp.2
  have hpc := of_decide_eq_true hp.1
  have hu := of_decide_eq_true hu
  refine ⟨s, u, hr, hpc, hpath, fun v hv => ?_⟩
  have hinv := servedInv_path hr hpc hpath
  have key := hv.invariant (I := fun v => ServedInv [.error, .stream (some (7, 1))] 0 v ∧
    (v.state.listening 0).pc = .accepting true ∧ v.pending = [.stream (some (7, 1))] ∧
    v.accepted = [] ∧ v.handed = []) ⟨hinv, hu⟩ ?_
  · exact key.2.2
  · rintro w a x ha ⟨hw, hpcw, hrest⟩ hs
    obtain ⟨hnone, hpcx⟩ := hw.disabled ha hpcw hs
    refine ⟨hw.step ha hs, hpcx, ?_⟩
    cases served_cases hs with
    | other _ _ => exact hrest
    | take _ hsome _ => rw [hnone] at hsome; cases hsome

end SocketManager.Manager
