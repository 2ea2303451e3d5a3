import SocketManager.Manager.Close

/-! `Conn::close` after the end. The `Conn` outlives its connection, and a close of it removes whatever
    the registry then holds under its pair of addresses:

        connection 0    OnConnectionClose ─────────────────────────── close
        connection 1                        connected ── insert ─────────── stop.closed()

    The entry of the finished connection itself is gone by then (`pastCleanup_unlisted`): its cleanup took it
    out, or it was never there. So a late close is without effect exactly when no other connection is
    registered under the same pair. -/

namespace SocketManager.Manager
variable {A : Type} {c c' : Conn A} {b : ConnAct A}

/-- The step belongs to a call of `close`. -/
def Conn.closes (c : Conn A) : ConnAct A → Bool
  | .close => true
  | .user n =>
    match c.calls[n]? with
    | some (.closeTake _) | some (.closeRemove _) => true
    | _ => false
  | _ => false

/-- The cleanup is behind the connection task, or was not needed. -/
def Pc.pastCleanup : Pc → Bool
  | .closing | .inClose | .done => true
  | _ => false

/-- The end is reached by the cleanup, or on a way that makes no insert. -/
theorem Conn.Move.pastCleanup (h : c.Move b c') (he : c'.pc.pastCleanup = true) :
    c.pc.pastCleanup = true ∨ (c.pc.pastInsert = false ∧ c.pc ≠ .insert) ∨ b = .task ∧ c.pc = .remove := by
  cases h with
  | task h =>
    cases h with
    | remove hp => exact .inr (.inr ⟨rfl, hp⟩)
    | unconfigured hp | connectErr hp => exact .inr (.inl (by rw [hp]; exact ⟨rfl, by simp⟩))
    | closing hp | closeReturned hp => exact .inl (by rw [hp]; rfl)
    | _ => cases he
  | user h => cases h <;> exact .inl he
  | msg _ | reader _ | writer _ => exact .inl he

theorem closes_of_regOp (h : c.regOp b = .close) : c.closes b = true := by
  unfold Conn.regOp at h
  split at h
  · split at h <;> cases h
  · split at h
    · rename_i hc
      simp [Conn.closes, hc]
    · cases h
  · cases h

/-- The removal is the only step of a `close` that accesses the registry. -/
theorem regOp_of_closes (h : c.closes b = true) : c.regOp b = .none ∨ c.regOp b = .close := by
  unfold Conn.closes at h
  split at h
  · exact .inl rfl
  · split at h
    · rename_i hc
      exact .inl (by simp [Conn.regOp, hc])
    · rename_i hc
      exact .inr (regOp_of_closeRemove hc)
    · cases h
  · cases h

variable [DecidableEq A] {s s' : State A} {a : Act A} {i : Nat}

/-! ### The entry of a finished connection -/

theorem pastCleanup_step (hstep : s.step a = some s') (he : (s'.conns i).pc.pastCleanup = true) :
    (s.conns i).pc.pastCleanup = true ∨
      ((s.conns i).pc.pastInsert = false ∧ (s.conns i).pc ≠ .insert) ∨
      a = .conn i .task ∧ (s.conns i).pc = .remove := by
  rcases step_like hstep with ⟨j, b, c, hs, ha, hl⟩ | ⟨-, hl⟩
  · rw [(hl i).pc] at he
    rcases eq_or_ne i j with rfl | hij
    · rw [Function.update_self] at he
      refine ((Conn.step_cases hs).pastCleanup he).imp_right (Or.imp_right ?_)
      rintro ⟨rfl, hp⟩
      rcases ha with rfl | ⟨hown, -⟩
      · exact ⟨rfl, hp⟩
      · cases hown
    · rw [Function.update_of_ne hij] at he; exact .inl he
  · rw [(hl i).pc] at he; exact .inl he

/-- A connection at its end has no entry. -/
theorem pastCleanup_unlisted (hr : (machine A).Reach s) (i : Nat) (he : (s.conns i).pc.pastCleanup = true) :
    s.Unlisted i := by
  refine Machine.Path.invariant_of_reach (I := fun s => (s.conns i).pc.pastCleanup = true → s.Unlisted i)
    hr (fun h => by cases h) ?_ he
  intro s a s' hr _ h hs he
  rcases pastCleanup_step hs he with hold | ⟨hbefore, hni⟩ | ⟨rfl, hp⟩
  · exact (h hold).step hs
  · refine ⟨?_, fun key hkey => ?_⟩
    · cases hp : (s'.conns i).pc <;> rw [hp] at he <;> first | rfl | cases he
    · have hold := (entry_step hs hkey).resolve_right hni
      exact ((reach_regInv hr).before_insert hbefore).2 key hold
  · have hop : (s.conns i).regOp .task = .cleanup := by simp [Conn.regOp, hp]
    exact unlisted_of_removal hr (.inl hop) hs (by rw [hp]; rfl)

theorem closed_unlisted (hr : (machine A).Reach s) (hc : .connectionClose ∈ (s.conns i).log) :
    s.Unlisted i := by
  have he := (reach_connInv (reach_conn hr i)).events.closed ((mem_callbacks rfl).mpr hc)
  exact pastCleanup_unlisted hr i (by rcases he with hp | hp <;> rw [hp] <;> rfl)

/-! ### A close that changes nothing -/

/-- The registry of connections is unchanged and no stop signal fires. -/
def State.SameRegistry (s s' : State A) : Prop :=
  s'.connections = s.connections ∧ ∀ j, (s'.conns j).stopDropped = (s.conns j).stopDropped

/-- A step of a `close`, on a connection whose `OnConnectionClose` was delivered, changes nothing. -/
def LateCloseKeeps (s : State A) (a : Act A) : Prop :=
  ∀ i b s', a = .conn i b → .connectionClose ∈ (s.conns i).log → (s.conns i).closes b = true →
    s.step a = some s' → s.SameRegistry s'

/-- When such a `close` removes, no other connection is registered under its pair of addresses. -/
def LateCloseAlone (s : State A) (a : Act A) : Prop :=
  ∀ i b, a = .conn i b → .connectionClose ∈ (s.conns i).log → (s.conns i).regOp b = .close →
    ∀ j, s.entry i = some j → j = i

/-- A step of a `close` that is not its removal changes nothing. -/
theorem sameRegistry_of_no_access (hs : s.step (.conn i b) = some s')
    (hop : (s.conns i).regOp b = .none) : s.SameRegistry s' := by
  obtain ⟨hown, -⟩ := step_conn hs
  obtain ⟨c, hc, rfl⟩ := step_conn_of_no_access hop hs
  refine ⟨rfl, fun j => ?_⟩
  rcases eq_or_ne j i with rfl | hij
  · show (Function.update s.conns j c j).stopDropped = _
    rw [Function.update_self]
    exact (Conn.step_cases hc).stopDropped (by rintro rfl; cases hown)
  · show (Function.update s.conns i c j).stopDropped = _
    rw [Function.update_of_ne hij]

/-- The removal changes nothing if and only if there is nothing to remove. -/
theorem sameRegistry_iff_of_close (hs : s.step (.conn i b) = some s')
    (hop : (s.conns i).regOp b = .close) : s.SameRegistry s' ↔ s.entry i = none := by
  obtain ⟨c, hacc, heff⟩ := step_access hs (by rw [hop]; simp)
  rw [hop] at hacc heff
  constructor
  · rintro ⟨hreg, -⟩
    by_contra hne
    obtain ⟨j, hj⟩ := Option.ne_none_iff_exists'.mp hne
    obtain ⟨key, hkey, hent⟩ := Option.bind_eq_some_iff.mp hj
    have hgone := heff.connections key
    rw [hreg, if_pos hkey, hent] at hgone; cases hgone
  · intro hnone
    refine ⟨funext fun key => ?_, fun j => ?_⟩
    · rw [heff.connections key]
      split
      · rename_i hkey
        rw [State.entry, hkey] at hnone
        exact hnone.symm
      · rfl
    · rw [heff.conns j, hnone, if_neg (by simp)]
      rcases eq_or_ne j i with rfl | hij
      · rw [Function.update_self]
        cases hacc with
        | close _ => rfl
      · rw [Function.update_of_ne hij]

theorem lateCloseKeeps_iff (hr : (machine A).Reach s) (hs : s.step a = some s') :
    LateCloseKeeps s a ↔ LateCloseAlone s a := by
  constructor
  · rintro h i b rfl hc hop j hj
    have hnone := (sameRegistry_iff_of_close hs hop).mp
      (h i b s' rfl hc (closes_of_regOp hop) hs)
    rw [hnone] at hj; cases hj
  · rintro h i b t rfl hc hcl ht
    rcases regOp_of_closes hcl with hop | hop
    · exact sameRegistry_of_no_access ht hop
    · refine (sameRegistry_iff_of_close ht hop).mpr (Option.eq_none_iff_forall_ne_some.mpr ?_)
      intro j hj
      obtain rfl := h i b rfl hc hop j hj
      obtain ⟨key, -, hkey⟩ := Option.bind_eq_some_iff.mp hj
      exact (closed_unlisted hr hc).2 key hkey

/-- Along every run, every `close` of a finished connection changes nothing if and only if each of them
    removes at a moment when no other connection is registered under its pair of addresses. -/
theorem late_closes_keep_iff (A : Type) [DecidableEq A] (as : List (Act A)) :
    (machine A).Along LateCloseKeeps State.init as ↔
      (machine A).Along LateCloseAlone State.init as :=
  Machine.Along.congr (I := (machine A).Reach) (fun _ _ _ _ hr hs => hr.tail trivial hs)
    (fun _ _ _ _ hr hs => lateCloseKeeps_iff hr hs) ((machine A).along_true as _) .refl

/-- Connection 0 ends and is cleaned up, its `OnConnectionClose` returns, connection 1 gets its
    addresses, and the user closes the `Conn` of connection 0. -/
def closeAfterReuse : List (Act Nat) :=
  openConn 0 (1, 2) ++ endConn 0 ++ [.conn 0 .task, .conn 0 .task, .conn 0 (.returns true)] ++
    openConn 1 (1, 2) ++ [.conn 0 .close]

/-- The removal of that close stops connection 1. -/
theorem late_close_stops_other :
    ¬ (machine Nat).Along LateCloseKeeps State.init (closeAfterReuse ++ [.conn 0 (.user 0)]) := by
  have heval : ((machine Nat).run State.init closeAfterReuse).any (fun s =>
      decide (.connectionClose ∈ (s.conns 0).log ∧ (s.conns 0).closes (.user 0) = true ∧
        (s.conns 1).stopDropped = false) &&
      (s.step (.conn 0 (.user 0))).any fun s' => (s'.conns 1).stopDropped) = true := by
    decide +kernel
  obtain ⟨s, hrun, hs⟩ := (Option.any_eq_true _ _).mp heval
  obtain ⟨hnow, hnext⟩ := (Bool.and_eq_true _ _).mp hs
  obtain ⟨hc, hcl, hd⟩ := of_decide_eq_true hnow
  obtain ⟨s', hstep, hd'⟩ := (Option.any_eq_true _ _).mp hnext
  refine Machine.not_along hrun hstep fun h => ?_
  have hsame := (h 0 (.user 0) s' rfl hc hcl hstep).2 1
  rw [hd, hd'] at hsame; cases hsame

end SocketManager.Manager
