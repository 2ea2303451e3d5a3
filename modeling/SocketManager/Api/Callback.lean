import SocketManager.Api.SocketAddr
import SocketManager.Manager.Accept
import SocketManager.Manager.Close

/-! The callback object of the user (conn_callback.h) and what `socket_manager_extern_on_conn` does
    with it. `conns` is what keeps a `Connection` alive, and with it the receiver that the runtime
    calls: `OnConnect` puts the object in, `OnConnectionClose` takes it out again.

    The map is keyed by the text of the two addresses, and what is taken out is what stands under the
    key, whoever put it there:

        connection 0    OnConnect ──────── halves end ················ OnConnectionClose
        connection 1                                    OnConnect
        conns[key]      0                               1              nothing

    A step of this machine is a step of the manager, followed by what the callback object does with
    the event that the step delivers. Its part under the lock comes before the user's own code, so
    that it is one step with the delivery. -/

namespace SocketManager.Api
open Manager

/-! ### The model -/

/-- The manager, and the callback object that it delivers its events to. A `Connection` object is
    known by the number of its connection. -/
structure Callback where
  manager : State SocketAddr
  conns : List Char → Option Nat

/-- `local_address() + peer_address()` -/
def connText (c : Conn SocketAddr) : Option (List Char) :=
  c.key.map fun key => key.1.fmt ++ key.2.fmt

/-- The event that a connection delivered on its way from `c` to `c'`. -/
def delivered {A : Type} (c c' : Conn A) : Option Event := c'.log[c.log.length]?

/-- What `socket_manager_extern_on_conn` does to `conns`. -/
def externOnConn (conns : List Char → Option Nat) (i : Nat) (key : List Char) :
    Event → List Char → Option Nat
  | .connect => Function.update conns key (some i)
  | .connectionClose => Function.update conns key none
  | _ => conns

namespace Callback

/-- The callback object handles what connection `i` delivers. -/
def onConn (s : Callback) (i : Nat) (c : Conn SocketAddr) : List Char → Option Nat :=
  match connText (s.manager.conns i), delivered (s.manager.conns i) c with
  | some key, some e => externOnConn s.conns i key e
  | _, _ => s.conns

def step (s : Callback) (a : Act SocketAddr) : Option Callback :=
  (s.manager.step a).map fun manager =>
    match a with
    | .conn i _ => ⟨manager, s.onConn i (manager.conns i)⟩
    | _ => ⟨manager, s.conns⟩

def init : Callback := ⟨State.init, fun _ => none⟩

def machine : Machine Callback (Act SocketAddr) := ⟨init, step⟩

end Callback

/-! ### What a connection delivers -/

section
variable {A : Type} {c c' : Conn A} {b : ConnAct A}

/-- What a move of a connection means to the callback object. -/
inductive Delivery (c : Conn A) (b : ConnAct A) (c' : Conn A) : Option Event → Prop where
  | connect (hb : b = .task) (hp : c.pc = .onConnect) (ho : c'.pc.opened = true)
      (hk : c'.key = c.key) : Delivery c b c' (some .connect)
  | close (hb : b = .task) (hp : c.pc = .closing) (ho : c'.pc.opened = false)
      (hk : c'.key = c.key) : Delivery c b c' (some .connectionClose)
  | other {e : Option Event} (hb : b = .task → c.pc ≠ .onConnect) (he : e ≠ some .connect)
      (he' : e ≠ some .connectionClose) (ho : c'.pc.opened = c.pc.opened)
      (hk : c.pc.opened = true → c'.key = c.key) : Delivery c b c' e

theorem delivered_concat {e : Event} (h : c'.log = c.log ++ [e]) : delivered c c' = some e := by
  rw [delivered, h, List.getElem?_concat_length]

theorem Delivery.silent (hlog : c'.log = c.log) (hb : b = .task → c.pc ≠ .onConnect)
    (ho : c'.pc.opened = c.pc.opened) (hk : c.pc.opened = true → c'.key = c.key) :
    Delivery c b c' (delivered c c') := by
  have hnone : delivered c c' = none := by rw [delivered, hlog, List.getElem?_length]
  rw [hnone]
  exact .other hb nofun nofun ho hk

theorem Delivery.logs {e : Event} (hlog : c'.log = c.log ++ [e]) (he : e ≠ .connect)
    (he' : e ≠ .connectionClose) (hb : b = .task → c.pc ≠ .onConnect)
    (ho : c'.pc.opened = c.pc.opened) (hk : c.pc.opened = true → c'.key = c.key) :
    Delivery c b c' (delivered c c') := by
  rw [delivered_concat hlog]
  exact .other hb (by simpa using he) (by simpa using he') ho hk

theorem delivery_task (h : c.TaskStep b c') : Delivery c b c' (delivered c c') := by
  cases h with
  | onConnect hp => rw [delivered_concat rfl]; exact .connect rfl hp rfl rfl
  | closing hp => rw [delivered_concat rfl]; exact .close rfl hp rfl rfl
  | connectFails hp | connectOk hp | connectErr hp | readerOk hp =>
    exact .logs rfl (by simp) (by simp) (by simp) (by rw [hp]; rfl) fun _ => rfl
  | connect hp | connected key hp | accept key hp =>
    exact .silent rfl (by simp) (by rw [hp]; rfl) (by simp [hp, Pc.opened])
  | configured hp | unconfigured hp | spawnWriter hp | spawnReader hp | insert hp | remove hp
  | errorReturned hp | remoteReturned hp | remoteReturnedLast hp | closeReturned hp | joinStop hp
  | writerPolledAgain hp | writerOk hp | writerOkLast hp | writerErr hp | readerPolledAgain hp
  | readerErr hp =>
    exact .silent rfl (by simp [hp]) (by rw [hp]; rfl) fun _ => rfl

/-- The calls of the user deliver nothing. -/
theorem delivery_user (h : c.UserStep b c') : Delivery c b c' (delivered c c') := by
  cases h with
  | startRefused | close | closeConsumed | startOk | startErr | closeReturned =>
    exact .logs rfl nofun nofun nofun rfl fun _ => rfl
  | start | closeTake | unwrapFails | dropHandle | dropStopper =>
    exact .silent rfl nofun rfl fun _ => rfl

theorem delivery (h : c.Move b c') : Delivery c b c' (delivered c c') := by
  cases h with
  | task h => exact delivery_task h
  | user h => exact delivery_user h
  | msg _ => exact .logs rfl nofun nofun nofun rfl fun _ => rfl
  | reader _ | writer _ => exact .silent rfl nofun rfl fun _ => rfl

end

/-! ### What a step does to the map -/

namespace Callback
variable {s s' : Callback} {a : Act SocketAddr}

/-- A step, as the callback object sees it. -/
inductive Handled (s : Callback) (a : Act SocketAddr) (s' : Callback) : Prop where
  | connect (i : Nat) (key : List Char) (ha : a = .conn i .task)
      (hp : (s.manager.conns i).pc = .onConnect) (hkey : connText (s.manager.conns i) = some key)
      (hopen : ∀ j, IsOpen (s'.manager.conns j) ↔ IsOpen (s.manager.conns j) ∨ j = i)
      (htext : ∀ j, connText (s'.manager.conns j) = connText (s.manager.conns j))
      (hconns : s'.conns = Function.update s.conns key (some i))
  | close (i : Nat) (key : List Char) (ha : a = .conn i .task)
      (hp : (s.manager.conns i).pc = .closing) (hkey : connText (s.manager.conns i) = some key)
      (hopen : ∀ j, IsOpen (s'.manager.conns j) ↔ IsOpen (s.manager.conns j) ∧ j ≠ i)
      (htext : ∀ j, connText (s'.manager.conns j) = connText (s.manager.conns j))
      (hconns : s'.conns = Function.update s.conns key none)
  | other (ha : ∀ i, a = .conn i .task → (s.manager.conns i).pc ≠ .onConnect)
      (hopen : ∀ j, IsOpen (s'.manager.conns j) ↔ IsOpen (s.manager.conns j))
      (htext : ∀ j, IsOpen (s.manager.conns j) →
        connText (s'.manager.conns j) = connText (s.manager.conns j))
      (hconns : s'.conns = s.conns)

theorem isOpen_like {A : Type} {c c' : Conn A} (h : c.Like c') : IsOpen c' ↔ IsOpen c := by
  rcases h with rfl | rfl <;> rfl

theorem connText_like {c c' : Conn SocketAddr} (h : c.Like c') : connText c' = connText c := by
  rcases h with rfl | rfl <;> rfl

theorem delivered_like {A : Type} {c c' c'' : Conn A} (h : c'.Like c'') :
    delivered c c'' = delivered c c' := by
  rcases h with rfl | rfl <;> rfl

/-- The addresses of a connection are known when an event of its task is delivered. -/
theorem connText_some {c : Conn SocketAddr} (h : StartInv c) (hp : c.pc.keyless = false) :
    ∃ key, connText c = some key := by
  obtain ⟨key, hkey⟩ := Option.ne_none_iff_exists'.mp (h.key hp)
  exact ⟨_, by rw [connText, hkey]; rfl⟩

theorem reach_manager (hr : machine.Reach s) : (Manager.machine SocketAddr).Reach s.manager := by
  refine Machine.Path.project (f := Callback.manager) hr ?_
  intro t a u _ hs
  obtain ⟨m, hm, rfl⟩ := Option.map_eq_some_iff.mp hs
  refine .single trivial (a := a) (hm.trans ?_)
  cases a <;> rfl

/-- A step of connection `i` changes who is open only at `i`. -/
theorem isOpen_update {m : State SocketAddr} {i : Nat} {c : Conn SocketAddr}
    (hlike : ∀ j, (Function.update s.manager.conns i c j).Like (m.conns j)) :
    (IsOpen (m.conns i) ↔ IsOpen c) ∧ connText (m.conns i) = connText c ∧
      ∀ j, j ≠ i → (IsOpen (m.conns j) ↔ IsOpen (s.manager.conns j)) ∧
        connText (m.conns j) = connText (s.manager.conns j) := by
  have hi := hlike i
  rw [Function.update_self] at hi
  refine ⟨isOpen_like hi, connText_like hi, fun j hj => ?_⟩
  have hj' := hlike j
  rw [Function.update_of_ne hj] at hj'
  exact ⟨isOpen_like hj', connText_like hj'⟩

theorem onConn_event {i : Nat} {c : Conn SocketAddr} {key : List Char} {e : Event}
    (hkey : connText (s.manager.conns i) = some key)
    (he : delivered (s.manager.conns i) c = some e) :
    s.onConn i c = externOnConn s.conns i key e := by
  simp only [onConn, hkey, he]

theorem onConn_other {i : Nat} {c : Conn SocketAddr} {e : Option Event}
    (he : delivered (s.manager.conns i) c = e) (hne : e ≠ some .connect)
    (hne' : e ≠ some .connectionClose) : s.onConn i c = s.conns := by
  unfold onConn
  rw [he]
  split
  · rename_i key e hkey
    cases e with
    | connect => exact absurd rfl hne
    | connectionClose => exact absurd rfl hne'
    | _ => rfl
  · rfl

/-- A step of connection `i` that neither opens nor closes it. -/
theorem isOpen_other {m : State SocketAddr} {i : Nat} {b : ConnAct SocketAddr} {c : Conn SocketAddr}
    (hinv : ConnInv (s.manager.conns i)) (hmove : (s.manager.conns i).Move b c)
    (hlike : ∀ j, (Function.update s.manager.conns i c j).Like (m.conns j))
    (ho : c.pc.opened = (s.manager.conns i).pc.opened)
    (hk : (s.manager.conns i).pc.opened = true → c.key = (s.manager.conns i).key) (j : Nat) :
    (IsOpen (m.conns j) ↔ IsOpen (s.manager.conns j)) ∧
      (IsOpen (s.manager.conns j) → connText (m.conns j) = connText (s.manager.conns j)) := by
  obtain ⟨hi, hti, hrest⟩ := isOpen_update hlike
  rcases eq_or_ne j i with rfl | hj
  · refine ⟨?_, fun hopen => ?_⟩
    · rw [hi, isOpen_iff (hinv.move hmove), isOpen_iff hinv, ho]
    · rw [hti, connText, hk ((isOpen_iff hinv).mp hopen)]; rfl
  · exact ⟨(hrest j hj).1, fun _ => (hrest j hj).2⟩

/-- A step that connection `i` takes by itself. -/
theorem handled_conn {m : State SocketAddr} {i : Nat} {b : ConnAct SocketAddr} {c : Conn SocketAddr}
    (hinv : ConnInv (s.manager.conns i)) (hstart : StartInv (s.manager.conns i))
    (hmove : (s.manager.conns i).Move b c)
    (hlike : ∀ j, (Function.update s.manager.conns i c j).Like (m.conns j)) :
    Handled s (.conn i b) ⟨m, s.onConn i (m.conns i)⟩ := by
  have hiff' := isOpen_iff (hinv.move hmove)
  obtain ⟨hi, hti, hrest⟩ := isOpen_update hlike
  have hmi := hlike i
  rw [Function.update_self] at hmi
  have hd := delivery hmove
  generalize he : delivered (s.manager.conns i) c = e at hd
  have he' : delivered (s.manager.conns i) (m.conns i) = e := (delivered_like hmi).trans he
  have htext : c.key = (s.manager.conns i).key →
      ∀ j, connText (m.conns j) = connText (s.manager.conns j) := by
    intro hk j
    rcases eq_or_ne j i with rfl | hj
    · rw [hti, connText, hk]; rfl
    · exact (hrest j hj).2
  cases hd with
  | connect hb hp ho hk =>
    obtain ⟨key, hkey⟩ := connText_some hstart (by rw [hp]; rfl)
    refine .connect i key (by rw [hb]) hp hkey (fun j => ?_) (htext hk) (onConn_event hkey he')
    rcases eq_or_ne j i with rfl | hj
    · simp [hi, hiff', ho]
    · simp [(hrest j hj).1, hj]
  | close hb hp ho hk =>
    obtain ⟨key, hkey⟩ := connText_some hstart (by rw [hp]; rfl)
    refine .close i key (by rw [hb]) hp hkey (fun j => ?_) (htext hk) (onConn_event hkey he')
    rcases eq_or_ne j i with rfl | hj
    · simp [hi, hiff', ho]
    · simp [(hrest j hj).1, hj]
  | other hb hne hne' ho hk =>
    have hsame := isOpen_other hinv hmove hlike ho hk
    refine .other ?_ (fun j => (hsame j).1) (fun j => (hsame j).2) (onConn_other he' hne hne')
    rintro j ⟨⟩
    exact hb rfl

/-- A step of the environment delivers nothing. -/
theorem delivery_env {A : Type} {c c' : Conn A} {b : ConnAct A} (h : c.Move b c')
    (hown : b.own = false) :
    c'.pc.opened = c.pc.opened ∧ (c.pc.opened = true → c'.key = c.key) := by
  have hd := delivery h
  generalize delivered c c' = e at hd
  cases hd with
  | connect hb | close hb => rw [hb] at hown; cases hown
  | other _ _ _ ho hk => exact ⟨ho, hk⟩

theorem step_cases (h : s.step a = some s') :
    s.manager.step a = some s'.manager ∧
      ((∃ i b, a = .conn i b ∧ s' = ⟨s'.manager, s.onConn i (s'.manager.conns i)⟩) ∨
        (∀ i b, a ≠ .conn i b) ∧ s'.conns = s.conns) := by
  obtain ⟨m, hm, rfl⟩ := Option.map_eq_some_iff.mp h
  cases a with
  | conn i b => exact ⟨hm, .inl ⟨i, b, rfl, rfl⟩⟩
  | _ => exact ⟨hm, .inr ⟨by simp, rfl⟩⟩

theorem handled (hr : machine.Reach s) (h : s.step a = some s') : Handled s a s' := by
  have hrm := reach_manager hr
  obtain ⟨hm, ⟨i, b, rfl, hs'⟩ | ⟨hne, hconns⟩⟩ := step_cases h
  · rcases step_like hm with ⟨i', b', c, hs, ha, hlike⟩ | ⟨ha, -⟩
    · rcases ha with ha | ⟨-, ha⟩
      · cases ha
        rw [hs']
        exact handled_conn (reach_connInv (reach_conn hrm i)) (reach_startInv (reach_conn hrm i))
          (Conn.step_cases hs) hlike
      · exact absurd rfl (ha i b)
    · exact absurd rfl (ha i b)
  · rcases step_like hm with ⟨i, b, c, hs, ha, hlike⟩ | ⟨-, hlike⟩
    · rcases ha with rfl | ⟨hown, -⟩
      · exact absurd rfl (hne i b)
      · have hmove := Conn.step_cases hs
        obtain ⟨ho, hk⟩ := delivery_env hmove hown
        have hsame := isOpen_other (reach_connInv (reach_conn hrm i)) hmove hlike ho hk
        exact .other (fun j hj => absurd hj (hne j _)) (fun j => (hsame j).1) (fun j => (hsame j).2)
          hconns
    · exact .other (fun j hj => absurd hj (hne j _)) (fun j => isOpen_like (hlike j))
        (fun j _ => connText_like (hlike j)) hconns

/-! ### Who is held -/

/-- `conns` holds the `Connection` of every open connection. -/
def Held (s : Callback) : Prop := ∀ i, IsOpen (s.manager.conns i) → ∃ key, s.conns key = some i

/-- `OnConnect` is delivered only while no other open connection has the same text. -/
def Distinct (s : Callback) : Act SocketAddr → Prop
  | .conn i b => b = .task → (s.manager.conns i).pc = .onConnect → ∀ j < s.manager.fresh, j ≠ i →
      IsOpen (s.manager.conns j) → connText (s.manager.conns j) ≠ connText (s.manager.conns i)
  | _ => True

/-- What stands in the map is open and stands under its own text. -/
def Entries (s : Callback) : Prop := ∀ key i, s.conns key = some i →
  IsOpen (s.manager.conns i) ∧ connText (s.manager.conns i) = some key

theorem Entries.step (h : s.Entries) (hs : Handled s a s') : s'.Entries := by
  intro k j hj
  cases hs with
  | connect i key _ _ hkey hopen htext hconns =>
    rw [hconns] at hj
    rw [hopen, htext]
    rcases eq_or_ne k key with rfl | hk
    · rw [Function.update_self] at hj
      obtain rfl := Option.some.inj hj
      exact ⟨.inr rfl, hkey⟩
    · rw [Function.update_of_ne hk] at hj
      exact ⟨.inl (h k j hj).1, (h k j hj).2⟩
  | close i key _ _ hkey hopen htext hconns =>
    rw [hconns] at hj
    rw [hopen, htext]
    rcases eq_or_ne k key with rfl | hk
    · rw [Function.update_self] at hj; cases hj
    · rw [Function.update_of_ne hk] at hj
      refine ⟨⟨(h k j hj).1, ?_⟩, (h k j hj).2⟩
      rintro rfl
      exact hk (Option.some.inj ((h k j hj).2.symm.trans hkey))
  | other _ hopen htext hconns =>
    rw [hconns] at hj
    obtain ⟨ho, ht⟩ := h k j hj
    rw [hopen, htext j ho]
    exact ⟨ho, ht⟩

theorem reach_entries (hr : machine.Reach s) : s.Entries :=
  Machine.Path.invariant_of_reach hr nofun fun _ _ _ hr _ h hs => h.step (handled hr hs)

/-- A held connection stands under its text. -/
theorem Held.entry (h : s.Held) (he : s.Entries) {i : Nat} {key : List Char}
    (hi : IsOpen (s.manager.conns i)) (hkey : connText (s.manager.conns i) = some key) :
    s.conns key = some i := by
  obtain ⟨k, hk⟩ := h i hi
  have hk' := (he k i hk).2
  rw [hkey] at hk'
  obtain rfl := Option.some.inj hk'
  exact hk

theorem lt_fresh (hr : machine.Reach s) {i : Nat} (hi : IsOpen (s.manager.conns i)) :
    i < s.manager.fresh := by
  by_contra hge
  have hp := fresh_unborn (reach_manager hr) i (by omega)
  have hopen := (isOpen_iff (reach_connInv (reach_conn (reach_manager hr) i))).mp hi
  rw [hp] at hopen; cases hopen

theorem distinct_of_no_connect
    (ha : ∀ i, a = .conn i .task → (s.manager.conns i).pc ≠ .onConnect) : s.Distinct a := by
  cases a with
  | conn i b =>
    rintro rfl hp
    exact absurd hp (ha i rfl)
  | _ => trivial

/-- A step keeps every open connection held if and only if it puts none in the place of another. -/
theorem held_step (hr : machine.Reach s) (hh : s.Held) (hs : s.step a = some s') :
    s'.Held ↔ s.Distinct a := by
  have he := reach_entries hr
  cases handled hr hs with
  | connect i key ha hp hkey hopen htext hconns =>
    subst ha
    constructor
    · intro hh' _ _ j _ hji hj heq
      obtain ⟨k, hk⟩ := hh' j ((hopen j).mpr (.inl hj))
      rw [hconns] at hk
      rcases eq_or_ne k key with rfl | hne
      · rw [Function.update_self] at hk
        exact hji (Option.some.inj hk).symm
      · rw [Function.update_of_ne hne] at hk
        refine hne (Option.some.inj ?_)
        rw [← (he k j hk).2, heq, hkey]
    · intro hd j hj
      rw [hconns]
      rcases eq_or_ne j i with rfl | hji
      · exact ⟨key, Function.update_self ..⟩
      · have hj' := ((hopen j).mp hj).resolve_right hji
        obtain ⟨k, hk⟩ := hh j hj'
        refine ⟨k, ?_⟩
        rw [Function.update_of_ne, hk]
        rintro rfl
        exact hd rfl hp j (lt_fresh hr hj') hji hj' ((he k j hk).2.trans hkey.symm)
  | close i key ha hp hkey hopen htext hconns =>
    subst ha
    have hi : IsOpen (s.manager.conns i) := by
      refine (isOpen_iff (reach_connInv (reach_conn (reach_manager hr) i))).mpr ?_
      rw [hp]; rfl
    refine iff_of_true (fun j hj => ?_) fun _ hp' => by rw [hp] at hp'; cases hp'
    obtain ⟨hj', hji⟩ := (hopen j).mp hj
    obtain ⟨k, hk⟩ := hh j hj'
    refine ⟨k, ?_⟩
    rw [hconns, Function.update_of_ne, hk]
    rintro rfl
    exact hji (Option.some.inj (hk.symm.trans (hh.entry he hi hkey)))
  | other ha hopen htext hconns =>
    refine iff_of_true (fun j hj => ?_) (distinct_of_no_connect ha)
    rw [hconns]
    exact hh j ((hopen j).mp hj)

instance : ∀ a, Decidable (s.Distinct a)
  | .conn _ b => inferInstanceAs (Decidable (b = .task → _ → ∀ j < s.manager.fresh, _ → _ → _ ≠ _))
  | .connect | .listen _ | .cancelListen _ | .abort | .clearConnections | .connected _ _ | .bindOk _
  | .bindFails _ | .listenErrorReturned _ | .insertListener _ | .accept _ _ | .acceptNoAddr _
  | .acceptFails _ | .canceled _ => .isTrue trivial

/-- The callback object keeps every open connection alive along a run that delivers `OnConnect` only
    while no other open connection has the same text, and the first `OnConnect` that comes while one
    has takes the other one out. -/
theorem held_iff_distinct (s : Callback) :
    (machine.Path Distinct init s → s.Held) ∧
    (machine.Reach s → s.Held → ∀ a s', s.step a = some s' → (s'.Held ↔ s.Distinct a)) := by
  refine ⟨fun hp => ?_, fun hr hh a s' hs => held_step hr hh hs⟩
  refine Machine.Path.invariant_of_reach hp nofun ?_
  intro s a s' hr hok hh hs
  exact (held_step hr hh hs).mpr hok

/-- A local address. -/
def loopback (port : UInt16) : SocketAddr := .v4 ⟨⟨127, 0, 0, 1⟩, port⟩

/-- Connection 1 gets the addresses of connection 0 after its `OnConnectionClose`. -/
theorem held_reused_address : ∃ s, machine.Path Distinct init s ∧
    (s.manager.conns 0).key = (s.manager.conns 1).key ∧ IsOpen (s.manager.conns 1) ∧
    ∃ key, s.conns key = some 1 := by
  obtain ⟨s, hp, hs⟩ := machine.path_of_guarded_run Distinct
    (openConn 0 (loopback 80, loopback 5000) ++ endConn 0 ++ [.conn 0 .task, .conn 0 .task] ++
      openConn 1 (loopback 80, loopback 5000))
    (fun s => decide ((s.manager.conns 0).key = (s.manager.conns 1).key ∧
      IsOpen (s.manager.conns 1)))
    (by decide +kernel)
  obtain ⟨hkey, hopen⟩ := of_decide_eq_true hs
  exact ⟨s, hp, hkey, hopen, (held_iff_distinct s).1 hp 1 hopen⟩

/-- Connection 1 gets them before: the `OnConnectionClose` of connection 0 takes connection 1 out,
    which runs on. -/
theorem open_connection_erased : ∃ s, machine.Reach s ∧ ¬ s.Held ∧
    (s.manager.conns 1).pc = .join false false ∧ IsOpen (s.manager.conns 1) ∧
    ∀ key, s.conns key ≠ some 1 := by
  obtain ⟨s, hr, hs⟩ := machine.reach_of_run
    (openConn 0 (loopback 80, loopback 5000) ++ endConn 0 ++
      openConn 1 (loopback 80, loopback 5000) ++ [.conn 0 .task, .conn 0 .task])
    (fun s => decide ((s.manager.conns 1).pc = .join false false ∧ IsOpen (s.manager.conns 1) ∧
      (connText (s.manager.conns 1)).bind s.conns = none))
    (by decide +kernel)
  obtain ⟨hpc, hopen, hnone⟩ := of_decide_eq_true hs
  have hout : ∀ key, s.conns key ≠ some 1 := by
    intro key hkey
    rw [(reach_entries hr key 1 hkey).2] at hnone
    rw [Option.bind_some, hkey] at hnone; cases hnone
  refine ⟨s, hr, fun hh => ?_, hpc, hopen, hout⟩
  obtain ⟨key, hkey⟩ := hh 1 hopen
  exact hout key hkey

end Callback

end SocketManager.Api
