import SocketManager.Outgoing.Steps

/-! The chain of rings between the sender and the writer. The rings the writer can still drain (the
    one in its hand, then those queued on the channel) are closed except for a tail that the sender
    still holds open. What the sender has accepted is what was written, followed by the content of
    that chain.

    `Core s tail acc` states this for a sender that holds the rings `tail` open and has accepted
    `acc`. It does not mention the program counter of the sender: the sender acts on a chain in three
    ways only (push to its ring, send a new ring, close its ring), and each has one lemma here. The
    steps of the writer keep `tail` and `acc`. -/

namespace SocketManager.Outgoing
variable {R : RingBuffer UInt8} {config : ConnConfig} {s s' : State R} {tail : List Nat}
  {acc : List UInt8} {b i j : Nat}

/-- The ring in the hand of the writer. -/
def WriterPc.ring? : WriterPc → Option Nat
  | .select i _ | .waitOccupied i | .isClosed i | .occupiedLen i | .asSlices i _ | .write i _ _
  | .advance i _ _ | .wake i _ => some i
  | .unwind r _ => r
  | _ => none

/-- The writer has not begun to return. -/
def WriterPc.running : WriterPc → Bool
  | .unwind _ _ | .unwindWake _ _ | .returned _ => false
  | _ => true

/-- Bytes the socket took that are still in the ring. -/
def WriterPc.inFlight : WriterPc → Nat
  | .advance _ _ n => n
  | _ => 0

/-- The writer saw the channel end: it returns `Ok` unless the shutdown fails. -/
def WriterPc.finishing : WriterPc → Bool
  | .shutdown => true
  | .unwind _ res | .unwindWake _ res | .returned res => decide (res = .ok)
  | _ => false

/-- The rings the writer can still drain, in order. -/
def State.live (s : State R) : List Nat := s.writer.ring?.toList ++ s.queue

/-- The content of the chain that the socket has not taken. -/
def State.backlog (s : State R) : List UInt8 :=
  (s.live.flatMap fun i => (s.rings i).occ).drop s.writer.inFlight

/-- What the locals of the writer's `flush` say about its ring. -/
def PcOk (rings : Nat → Ring R) : WriterPc → Prop
  | .asSlices i k => k = .closed → (rings i).prodHeld = false
  | .write i k left => left ≠ [] ∧ left <+: (rings i).occ ∧ (k = .closed → (rings i).prodHeld = false)
  | .advance i k n => n ≤ (rings i).occ.length ∧ (k = .closed → (rings i).prodHeld = false)
  | .wake i k => k = .closed → (rings i).prodHeld = false
  | _ => True

/-- The chain of a running writer. -/
structure Running (s : State R) (tail : List Nat) (acc : List UInt8) : Prop where
  rx : s.rxHeld = true
  nodup : s.live.Nodup
  chain : ∃ closed, s.live = closed ++ tail ∧ ∀ i ∈ closed, (s.rings i).prodHeld = false
  tailOpen : ∀ i ∈ tail, (s.rings i).prodHeld = true
  cons : ∀ i ∈ s.live, (s.rings i).consHeld = true
  cap : ∀ i ∈ s.live, ringBufferSize ≤ R.capacity (s.rings i).rb
  pc : PcOk s.rings s.writer
  stream : acc = s.written ++ s.backlog

/-- The chain invariant for a sender that holds `tail` open and has accepted `acc`. -/
structure Core (s : State R) (tail : List Nat) (acc : List UInt8) : Prop where
  running : s.writer.running = true → Running s tail acc
  written : s.written <+: acc
  finishing : s.writer.finishing = true → tail = [] ∧ s.queue = [] ∧ acc = s.written

/-! ### Content of one ring -/

@[simp] theorem Ring.occ_new (n : Nat) : (Ring.new n : Ring R).occ = [] := R.occupied_new n

@[simp] theorem Ring.capacity_new (n : Nat) : R.capacity (Ring.new n : Ring R).rb = n :=
  R.capacity_new n

theorem Ring.occ_push (r : Ring R) (bytes : List UInt8) :
    (r.push bytes).occ = r.occ ++ bytes.take (r.pushCount bytes) :=
  R.occupied_pushSlice r.rb bytes

@[simp] theorem Ring.capacity_push (r : Ring R) (bytes : List UInt8) :
    R.capacity (r.push bytes).rb = R.capacity r.rb :=
  R.capacity_pushSlice r.rb bytes

theorem Ring.pushCount_le (r : Ring R) (bytes : List UInt8) : r.pushCount bytes ≤ bytes.length :=
  R.pushSlice_le_length r.rb bytes

/-! ### Changing one ring -/

namespace State
variable {f : Ring R → Ring R}

theorem updRing_self : (s.updRing i f).rings i = f (s.rings i) := Function.update_self _ _ _

theorem updRing_of_ne (h : j ≠ i) : (s.updRing i f).rings j = s.rings j :=
  Function.update_of_ne h _ _

/-- A property the change keeps holds of every ring it held of. -/
theorem updRing_imp (P : Ring R → Prop) (hf : P (s.rings i) → P (f (s.rings i)))
    (h : P (s.rings j)) : P ((s.updRing i f).rings j) := by
  rcases eq_or_ne j i with rfl | hji
  · rw [updRing_self]; exact hf h
  · rw [updRing_of_ne hji]; exact h

/-- What the change does not touch is the same in every ring. -/
theorem updRing_congr {γ : Type} (g : Ring R → γ) (hf : g (f (s.rings i)) = g (s.rings i)) :
    g ((s.updRing i f).rings j) = g (s.rings j) := by
  rcases eq_or_ne j i with rfl | hji
  · rw [updRing_self, hf]
  · rw [updRing_of_ne hji]

/-- The same for a step that updates one ring. -/
theorem rings_congr {γ : Type} (g : Ring R → γ) {r : Ring R}
    (hs : s'.rings = Function.update s.rings i r) (hg : g r = g (s.rings i)) :
    g (s'.rings j) = g (s.rings j) := by
  rw [hs]
  rcases eq_or_ne j i with rfl | hji
  · rw [Function.update_self, hg]
  · rw [Function.update_of_ne hji]

end State

/-! ### Frame rules -/

/-- The locals of `flush` stay right while the producer pushes to the ring or closes it. -/
theorem PcOk.mono {rings rings' : Nat → Ring R} {w : WriterPc} (h : PcOk rings w)
    (hring : ∀ i, w.ring? = some i → (rings i).occ <+: (rings' i).occ ∧
      ((rings i).prodHeld = false → (rings' i).prodHeld = false)) : PcOk rings' w := by
  cases w with
  | asSlices i k => exact fun hk => (hring i rfl).2 (h hk)
  | write i k left => exact ⟨h.1, h.2.1.trans (hring i rfl).1, fun hk => (hring i rfl).2 (h.2.2 hk)⟩
  | advance i k n => exact ⟨h.1.trans (hring i rfl).1.length_le, fun hk => (hring i rfl).2 (h.2 hk)⟩
  | wake i k => exact fun hk => (hring i rfl).2 (h hk)
  | _ => trivial

/-- The chain depends on what can be seen of the live rings, not on their wakers nor on rings the
    writer cannot reach. -/
theorem Running.congr (h : Running s tail acc) (hw : s'.writer = s.writer) (hq : s'.queue = s.queue)
    (hwr : s'.written = s.written) (hrx : s'.rxHeld = s.rxHeld)
    (hring : ∀ i ∈ s.live, (s'.rings i).rb = (s.rings i).rb ∧
      (s'.rings i).prodHeld = (s.rings i).prodHeld ∧ (s'.rings i).consHeld = (s.rings i).consHeld) :
    Running s' tail acc := by
  have hlive : s'.live = s.live := by simp only [State.live, hw, hq]
  have hocc : ∀ i ∈ s.live, (s'.rings i).occ = (s.rings i).occ := by
    intro i hi; simp only [Ring.occ, (hring i hi).1]
  obtain ⟨closed, hc, hcl⟩ := h.chain
  refine ⟨hrx.trans h.rx, hlive ▸ h.nodup, ⟨closed, hlive.trans hc, ?_⟩, ?_, ?_, ?_, ?_, ?_⟩
  · intro i hi
    rw [(hring i (by rw [hc]; exact List.mem_append_left _ hi)).2.1]; exact hcl i hi
  · intro i hi
    rw [(hring i (by rw [hc]; exact List.mem_append_right _ hi)).2.1]; exact h.tailOpen i hi
  · intro i hi; rw [hlive] at hi; rw [(hring i hi).2.2]; exact h.cons i hi
  · intro i hi; rw [hlive] at hi; rw [(hring i hi).1]; exact h.cap i hi
  · rw [hw]
    refine h.pc.mono fun i hi => ?_
    have hmem : i ∈ s.live := by simp [State.live, hi]
    rw [hocc i hmem, (hring i hmem).2.1]
    exact ⟨List.prefix_rfl, id⟩
  · rw [h.stream, hwr, State.backlog, State.backlog, hlive, hw]
    congr 2
    exact List.flatMap_congr fun i hi => (hocc i hi).symm

/-- A step of the writer that leaves the rings alone and only moves bytes from the backlog to the
    socket. -/
theorem Running.of_live (h : Running s tail acc) (hlive : s'.live = s.live)
    (hrings : s'.rings = s.rings) (hrx : s'.rxHeld = s.rxHeld) (hpc : PcOk s.rings s'.writer)
    (hstream : s'.written ++ s'.backlog = s.written ++ s.backlog) : Running s' tail acc := by
  refine ⟨hrx.trans h.rx, hlive ▸ h.nodup, ?_, ?_, ?_, ?_, hrings ▸ hpc, h.stream.trans hstream.symm⟩
  · rw [hlive, hrings]; exact h.chain
  · rw [hrings]; exact h.tailOpen
  · rw [hlive, hrings]; exact h.cons
  · rw [hlive, hrings]; exact h.cap

/-- A step of the writer between two points of its code that hold the same ring and have taken the
    same bytes. -/
theorem Running.goto (h : Running s tail acc) {w : WriterPc} (hr : w.ring? = s.writer.ring?)
    (hf : w.inFlight = s.writer.inFlight) (hpc : PcOk s.rings w) :
    Running (s.writerAt w) tail acc := by
  have hlive : (s.writerAt w).live = s.live := by simp only [State.live, State.writerAt_writer, hr]; rfl
  refine h.of_live hlive rfl rfl hpc ?_
  rw [State.backlog, State.backlog, hlive, State.writerAt_writer, hf]; rfl

/-- The ring in the hand of the writer is the head of the chain. -/
theorem live_eq_cons (hw : s.writer.ring? = some i) : s.live = i :: s.queue := by
  simp [State.live, hw]

/-- Bytes in flight are bytes of the chain. -/
theorem inFlight_le (hpc : PcOk s.rings s.writer) :
    s.writer.inFlight ≤ (s.live.flatMap fun i => (s.rings i).occ).length := by
  cases hw : s.writer <;> simp only [WriterPc.inFlight, Nat.zero_le]
  case advance i k n =>
    rw [live_eq_cons (by rw [hw]; rfl), List.flatMap_cons, List.length_append]
    simp only [hw, PcOk] at hpc
    omega

/-- A ring that is not closed belongs to the open tail. -/
theorem Running.mem_tail (h : Running s tail acc) (hi : i ∈ s.live)
    (ho : (s.rings i).prodHeld = true) : i ∈ tail := by
  obtain ⟨closed, hc, hcl⟩ := h.chain
  rw [hc] at hi
  rcases List.mem_append.mp hi with hi | hi
  · rw [hcl i hi] at ho; exact absurd ho (by decide)
  · exact hi

/-- `Running.congr` for the whole invariant. -/
theorem Core.congr (h : Core s tail acc) (hw : s'.writer = s.writer) (hq : s'.queue = s.queue)
    (hwr : s'.written = s.written) (hrx : s'.rxHeld = s.rxHeld)
    (hring : ∀ i ∈ s.live, (s'.rings i).rb = (s.rings i).rb ∧
      (s'.rings i).prodHeld = (s.rings i).prodHeld ∧ (s'.rings i).consHeld = (s.rings i).consHeld) :
    Core s' tail acc := by
  refine ⟨fun hrun => (h.running (hw ▸ hrun)).congr hw hq hwr hrx hring, hwr ▸ h.written, fun hf => ?_⟩
  rw [hq, hwr]; exact h.finishing (hw ▸ hf)

/-- The chain is blind to the rest of the sender. -/
theorem Core.sender (h : Core s tail acc) {fresh ringBuf : Nat} {txHeld : Bool} {sender : SenderPc}
    {calls : List Call} {woken : List Waker} :
    Core { s with fresh, ringBuf, txHeld, sender, calls, woken } tail acc :=
  h.congr rfl rfl rfl rfl fun _ _ => ⟨rfl, rfl, rfl⟩

/-! ### What the sender does to the chain -/

/-- Content of a chain whose last ring grew. -/
theorem flatMap_push {f g : Nat → List UInt8} {l : List Nat} {xs : List UInt8} (hb : b ∉ l)
    (hg : ∀ i, i ≠ b → g i = f i) (hgb : g b = f b ++ xs) :
    (l ++ [b]).flatMap g = (l ++ [b]).flatMap f ++ xs := by
  have hl : l.flatMap g = l.flatMap f :=
    List.flatMap_congr fun i hi => hg i fun hib => hb (hib ▸ hi)
  simp only [List.flatMap_append, hl, List.flatMap_cons, List.flatMap_nil, List.append_nil, hgb,
    List.append_assoc]

/-- Pushing to the open ring appends the pushed bytes to what was accepted. -/
theorem Core.push (h : Core s [b] acc) (bytes : List UInt8) :
    Core (s.updRing b (·.push bytes)) [b] (acc ++ bytes.take ((s.rings b).pushCount bytes)) := by
  refine ⟨fun hrun => ?_, h.written.trans (List.prefix_append _ _),
    fun hf => absurd (h.finishing hf).1 (by simp)⟩
  have hr := h.running hrun
  obtain ⟨closed, hc, hcl⟩ := hr.chain
  have hb : b ∉ closed := by
    have hnd := hr.nodup
    rw [hc, List.nodup_append] at hnd
    exact fun hmem => hnd.2.2 b hmem b (by simp) rfl
  refine ⟨hr.rx, hr.nodup, ⟨closed, hc, fun i hi => State.updRing_imp (·.prodHeld = false) id (hcl i hi)⟩,
    fun i hi => State.updRing_imp (·.prodHeld = true) id (hr.tailOpen i hi),
    fun i hi => State.updRing_imp (·.consHeld = true) id (hr.cons i hi),
    fun i hi => State.updRing_imp (fun r => ringBufferSize ≤ R.capacity r.rb)
      (by rw [Ring.capacity_push]; exact id) (hr.cap i hi),
    hr.pc.mono fun i _ => ⟨?_, State.updRing_imp (·.prodHeld = false) id⟩, ?_⟩
  · refine State.updRing_imp (fun r => (s.rings i).occ <+: r.occ) (fun hpre => ?_)
      List.prefix_rfl
    rw [Ring.occ_push]; exact hpre.trans (List.prefix_append _ _)
  · -- the pushed bytes go behind the bytes in flight
    have hcontent : (s.live.flatMap fun i => ((s.updRing b (·.push bytes)).rings i).occ) =
        (s.live.flatMap fun i => (s.rings i).occ) ++ bytes.take ((s.rings b).pushCount bytes) := by
      rw [hc]
      exact flatMap_push hb (fun i hi => by rw [State.updRing_of_ne hi])
        (by rw [State.updRing_self, Ring.occ_push])
    show acc ++ _ = s.written ++
      (s.live.flatMap fun i => ((s.updRing b (·.push bytes)).rings i).occ).drop s.writer.inFlight
    rw [hcontent, List.drop_append_of_le_length (inFlight_le hr.pc), hr.stream, State.backlog,
      List.append_assoc]

/-- Sending a ring on the channel makes it the last of the chain. -/
theorem Core.send (h : Core s [b] acc) (hj : j ∉ s.live) (hp : (s.rings j).prodHeld = true)
    (hcons : (s.rings j).consHeld = true) (hcap : ringBufferSize ≤ R.capacity (s.rings j).rb) :
    Core { s with queue := s.queue ++ [j] } [b, j] (acc ++ (s.rings j).occ) := by
  have hlive : State.live { s with queue := s.queue ++ [j] } = s.live ++ [j] := by
    simp only [State.live, List.append_assoc]
  refine ⟨fun hrun => ?_, h.written.trans (List.prefix_append _ _), fun hf => ?_⟩
  · have hr := h.running hrun
    obtain ⟨closed, hc, hcl⟩ := hr.chain
    have hall : ∀ {P : Nat → Prop}, (∀ i ∈ s.live, P i) → P j → ∀ i ∈ s.live ++ [j], P i := by
      intro P hs hPj i hi
      rcases List.mem_append.mp hi with hi | hi
      · exact hs i hi
      · rw [List.mem_singleton.mp hi]; exact hPj
    refine ⟨hr.rx, ?_, ⟨closed, ?_, hcl⟩, ?_, ?_, ?_, hr.pc, ?_⟩
    · rw [hlive, List.nodup_append]
      refine ⟨hr.nodup, by simp, fun i hi k hk hik => hj ?_⟩
      rw [← List.mem_singleton.mp hk, ← hik]; exact hi
    · rw [hlive, hc, List.append_assoc]; rfl
    · intro i hi
      rcases List.mem_cons.mp hi with rfl | hi
      · exact hr.tailOpen i (by simp)
      · rw [List.mem_singleton.mp hi]; exact hp
    · rw [hlive]; exact hall hr.cons hcons
    · rw [hlive]; exact hall hr.cap hcap
    · rw [State.backlog, hlive, List.flatMap_append,
        List.drop_append_of_le_length (inFlight_le hr.pc), hr.stream, State.backlog]
      simp only [List.flatMap_cons, List.flatMap_nil, List.append_nil, List.append_assoc]
  · exact absurd (h.finishing hf).1 (by simp)

/-- Dropping the producer of the first open ring closes that ring. -/
theorem Core.close (h : Core s (b :: tail) acc) :
    Core (s.updRing b fun r => { r with prodHeld := false }) tail acc := by
  refine ⟨fun hrun => ?_, h.written, fun hf => absurd (h.finishing hf).1 (by simp)⟩
  have hr := h.running hrun
  obtain ⟨closed, hc, hcl⟩ := hr.chain
  have hnd := hr.nodup
  rw [hc, List.nodup_append, List.nodup_cons] at hnd
  have hocc : ∀ i, ((s.updRing b fun r => { r with prodHeld := false }).rings i).occ =
      (s.rings i).occ := fun i => State.updRing_congr Ring.occ rfl
  refine ⟨hr.rx, hr.nodup, ⟨closed ++ [b], ?_, fun i hi => ?_⟩, fun i hi => ?_,
    fun i hi => State.updRing_imp (·.consHeld = true) id (hr.cons i hi),
    fun i hi => State.updRing_imp (fun r => ringBufferSize ≤ R.capacity r.rb) id (hr.cap i hi),
    hr.pc.mono fun i _ => ⟨by rw [hocc i], State.updRing_imp (·.prodHeld = false) fun _ => rfl⟩, ?_⟩
  · show s.live = closed ++ [b] ++ tail
    rw [hc, List.append_assoc]; rfl
  · rcases List.mem_append.mp hi with hi | hi
    · exact State.updRing_imp (·.prodHeld = false) (fun _ => rfl) (hcl i hi)
    · rw [List.mem_singleton.mp hi, State.updRing_self]
  · have hib : i ≠ b := by rintro rfl; exact hnd.2.1.1 hi
    rw [State.updRing_of_ne hib]
    exact hr.tailOpen i (List.mem_cons_of_mem _ hi)
  · show acc = s.written ++ (s.live.flatMap fun i =>
      ((s.updRing b fun r => { r with prodHeld := false }).rings i).occ).drop s.writer.inFlight
    rw [hr.stream, State.backlog]
    simp only [hocc]

end SocketManager.Outgoing
