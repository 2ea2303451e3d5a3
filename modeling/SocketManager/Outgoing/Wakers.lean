import SocketManager.Outgoing.Async

/-! The notifiers that the writer can still call. A pointer stands in the waker slot of a ring, and
    the writer comes to that slot by draining the ring, by dropping it, or with the wake it owes after
    either:

        in hand ── queued ── queued          about to be woken
        (ring?)      (queue)                     (wakes)

    A step of the writer adds no pointer to these slots, and calls none that it does not take from one
    of them. A step of the sender adds one at the registration only, and only where the writer can
    still come to the ring. -/

namespace SocketManager.Outgoing
variable {R : RingBuffer UInt8} {config : ConnConfig} {s s' : State R} {b p : Nat}

/-- The rings whose producer the writer can still wake. -/
def State.inReach (s : State R) : List Nat := s.live ++ s.writer.wakes.toList

/-- The pointer in a waker slot. -/
def Waker.this? : Waker → Option Nat
  | .blockOn => none
  | .notifier this => some this

/-- The notifiers that are registered in these rings, by their addresses. -/
def State.registered (s : State R) : List Nat :=
  s.inReach.filterMap fun b => (s.rings b).waker.bind Waker.this?

theorem Waker.this?_eq_some {w : Waker} : w.this? = some p ↔ w = .notifier p := by
  cases w <;> simp [this?]

theorem mem_registered :
    p ∈ s.registered ↔ ∃ b ∈ s.inReach, (s.rings b).waker = some (.notifier p) := by
  simp [State.registered, List.mem_filterMap, Option.bind_eq_some_iff, Waker.this?_eq_some]

/-- What stands in the slots depends on the slots and on what is in reach. -/
theorem registered_mono (hreach : ∀ b ∈ s'.inReach, b ∈ s.inReach)
    (hwaker : ∀ b ∈ s'.inReach, ∀ w, (s'.rings b).waker = some w → (s.rings b).waker = some w)
    (h : p ∈ s'.registered) : p ∈ s.registered := by
  obtain ⟨b, hb, hw⟩ := mem_registered.mp h
  exact mem_registered.mpr ⟨b, hreach b hb, hwaker b hb _ hw⟩

theorem mem_inReach :
    b ∈ s.inReach ↔ s.writer.ring? = some b ∨ b ∈ s.queue ∨ s.writer.wakes = some b := by
  simp [State.inReach, State.live]

/-! ### The writer -/

/-- A move that takes nothing from the queue, and whose ring was the writer's own. -/
theorem inReach_hand (h : b ∈ s'.inReach) (hq : s'.queue = s.queue)
    (hring : s'.writer.ring? = none ∨ s'.writer.ring? = s.writer.ring?)
    (hwakes : s'.writer.wakes = none ∨ s'.writer.wakes = s.writer.ring?) : b ∈ s.inReach := by
  rw [mem_inReach] at h ⊢
  rcases h with h | h | h
  · rcases hring with hr | hr <;> rw [hr] at h
    · cases h
    · exact .inl h
  · exact .inr (.inl (hq ▸ h))
  · rcases hwakes with hr | hr <;> rw [hr] at h
    · cases h
    · exact .inl h

/-- The writer comes to no ring that it could not come to before. -/
theorem inReach_writerMove (hm : WriterMove config s s') (h : b ∈ s'.inReach) : b ∈ s.inReach := by
  cases hm with
  | @recv ring queue hw hq =>
    have hhand : (ringReceived config ring).ring? = some ring ∧
        (ringReceived config ring).wakes = none := by
      unfold ringReceived
      split <;> exact ⟨rfl, rfl⟩
    simp only [mem_inReach, hhand, hq, Option.some.injEq, List.mem_cons] at h ⊢
    rcases h with rfl | h | h
    · exact .inr (.inl (.inl rfl))
    · exact .inr (.inl (.inr h))
    · cases h
  | @unwindQueue ring queue res hw hrx hq =>
    rw [mem_inReach] at h ⊢
    rw [hq]
    rcases h with h | h | h
    · cases h
    · exact .inr (.inl (.tail _ h))
    · cases h
      exact .inr (.inl (.head _))
  | @flushed ring k hw _ =>
    cases k with
    | closed => exact inReach_hand h rfl (.inl rfl) (.inr (by rw [hw]; rfl))
    | tick => exact inReach_hand h rfl (.inr (by rw [hw]; rfl)) (.inl rfl)
    | occupied =>
      simp only [flushed] at h
      split at h
      · exact inReach_hand h rfl (.inr (by rw [hw]; rfl)) (.inl rfl)
      · exact inReach_hand h rfl (.inr (by rw [hw]; rfl)) (.inl rfl)
  | @abort ring hw =>
    have hring : s.writer.ring? = ring := by
      cases hs : s.writer <;> rw [hs] at hw <;> cases hw <;> rfl
    exact inReach_hand h rfl (.inr (by rw [hring]; rfl)) (.inl rfl)
  | unwindRing hw => exact inReach_hand h rfl (.inl rfl) (.inr (by rw [hw]; rfl))
  | advance hw => exact inReach_hand h rfl (.inr (by rw [hw]; rfl)) (.inr (by rw [hw]; rfl))
  | unwindRx hw => exact inReach_hand h rfl (.inr rfl) (.inl (by simp [hw, WriterPc.wakes]))
  | wake hw | ringDropped hw | unwindWake hw =>
    exact inReach_hand h rfl (.inr (by rw [hw]; rfl)) (.inl rfl)
  | finish hw | ready hw | readyNoFlush hw | closed hw | measure hw | drain hw | below hw | enough hw
  | tick hw | write hw | wrote hw | writeFails hw | shutdownOk hw | shutdownFails hw | returned hw =>
    exact inReach_hand h rfl (.inr (by rw [hw]; rfl)) (.inl rfl)

/-- It puts nothing into a slot. -/
theorem waker_writerMove {w : Waker} (hm : WriterMove config s s')
    (hw : (s'.rings b).waker = some w) : (s.rings b).waker = some w := by
  have heff : RingEffect s s' b := writerMove_effect hm
  cases heff with
  | kept hring => rwa [hring] at hw
  | touched hwaker => rwa [hwaker] at hw
  | woken _ hnone => rw [hnone] at hw; cases hw

theorem registered_writerMove (hm : WriterMove config s s') (h : p ∈ s'.registered) :
    p ∈ s.registered :=
  registered_mono (fun _ hb => inReach_writerMove hm hb) (fun _ _ _ hw => waker_writerMove hm hw) h

/-- Whom it wakes stood in the slot of the ring whose wake it owed. -/
theorem wakes_of_woken (hm : WriterMove config s s') (hw : s'.woken = s.woken ++ [.notifier p]) :
    ∃ b, s.writer.wakes = some b ∧ (s.rings b).waker = some (.notifier p) := by
  have hwakes : ∃ b, s.writer.wakes = some b ∧ s'.woken = s.woken ++ (s.rings b).waker.toList := by
    cases hm with
    | wake h | ringDropped h | unwindWake h => exact ⟨_, by rw [h]; rfl, rfl⟩
    | @flushed ring k => cases k <;> simp [flushed] at hw
    | _ => simp at hw
  obtain ⟨b, hb, hb'⟩ := hwakes
  rw [hb'] at hw
  refine ⟨b, hb, ?_⟩
  have := List.append_cancel_left hw
  cases hslot : (s.rings b).waker <;> simp_all

/-! ### The sender -/

/-- The new ring that is about to be sent. -/
def SenderPc.sending : SenderPc → Option Nat
  | .sendRing _ _ ring => some ring
  | _ => none

/-- What a move of the sender means for the slots. -/
inductive SlotMove (s s' : State R) : Prop where
  /-- The slots are as they were. -/
  | kept (hq : s'.queue = s.queue) (hslots : ∀ b, (s'.rings b).waker = (s.rings b).waker)
      (hs : s'.sender.sending = none)
  /-- A new ring is made. -/
  | alloc (hq : s'.queue = s.queue) (hnone : (s'.rings s.fresh).waker = none)
      (hslots : ∀ b, b ≠ s.fresh → (s'.rings b).waker = (s.rings b).waker)
      (hs : s'.sender.sending = some s.fresh)
  /-- The new ring is sent. -/
  | send {ring : Nat} (hsd : s.sender.sending = some ring)
      (hq : s'.queue = s.queue ++ [ring]) (hslots : s'.rings = s.rings)
      (hs : s'.sender.sending = none)
  /-- A waker is registered. -/
  | register {w : Waker} (hw : w = .blockOn ∨ ∃ bytes, s.sender = .registerWaker bytes w)
      (hq : s'.queue = s.queue) (hslot : (s'.rings s.ringBuf).waker = some w)
      (hslots : ∀ b, b ≠ s.ringBuf → (s'.rings b).waker = (s.rings b).waker)
      (hs : s'.sender.sending = none)

theorem burstWrite_slots (op : Op) (offset : Nat) (registered : Bool) :
    SlotMove s (burstWrite s op offset registered) ∧
      (burstWrite s op offset registered).woken = s.woken := by
  have hslots : ∀ b, ((s.updRing s.ringBuf (·.push (op.bytes.drop offset))).rings b).waker =
      (s.rings b).waker := fun b => State.updRing_congr Ring.waker rfl
  simp only [burstWrite]
  split
  · cases op <;> simp only [burstPending] <;> (try split) <;> (try split) <;>
      exact ⟨.kept rfl hslots rfl, rfl⟩
  · split
    · cases op <;> exact ⟨.kept rfl hslots rfl, rfl⟩
    · exact ⟨.kept rfl hslots rfl, rfl⟩

theorem Ring.pollWrite_waker (r : Ring R) (bytes : List UInt8) :
    (r.pollWrite bytes).2.waker = match (r.pollWrite bytes).1 with
      | none => some .blockOn
      | some _ => r.waker := by
  unfold Ring.pollWrite
  split
  · rfl
  · split <;> rfl

theorem pollWrite_slots (bytes : List UInt8) (offset : Nat) :
    SlotMove s (pollWrite s bytes offset) ∧ (pollWrite s bytes offset).woken = s.woken := by
  have hwaker := Ring.pollWrite_waker (s.rings s.ringBuf) (bytes.drop offset)
  simp only [pollWrite]
  split
  · rename_i hpoll
    rw [hpoll] at hwaker
    refine ⟨.register (.inl rfl) rfl ?_ (fun b hb => ?_) rfl, rfl⟩
    · rw [State.senderAt_rings, State.updRing_self, hwaker]
    · rw [State.senderAt_rings, State.updRing_of_ne hb]
  · rename_i n hpoll
    rw [hpoll] at hwaker
    have hslots : ∀ b, ((s.updRing s.ringBuf fun _ =>
        ((s.rings s.ringBuf).pollWrite (bytes.drop offset)).2).rings b).waker = (s.rings b).waker :=
      fun b => State.updRing_congr Ring.waker hwaker
    split <;> exact ⟨.kept rfl hslots rfl, rfl⟩

/-- It wakes nobody. -/
theorem senderMove_slots (hm : SenderMove s s') : SlotMove s s' ∧ s'.woken = s.woken := by
  cases hm with
  | call op hs =>
    cases op <;> simp only [startCall] <;> (try split) <;> exact ⟨.kept rfl (fun _ => rfl) rfl, rfl⟩
  | repoll hs => exact ⟨.kept rfl (fun _ => rfl) rfl, rfl⟩
  | drop hs => exact ⟨.kept rfl (fun _ => State.rings_congr Ring.waker rfl rfl) rfl, rfl⟩
  | step hs =>
    unfold senderStep at hs
    split at hs
    case h_4 => obtain rfl := Option.some.inj hs; exact burstWrite_slots ..
    case h_5 => obtain rfl := Option.some.inj hs; exact pollWrite_slots ..
    case h_6 op offset _ =>
      obtain rfl := Option.some.inj hs
      refine ⟨.alloc rfl ?_ (fun b hb => ?_) rfl, rfl⟩
      · rw [State.senderAt_rings, State.updRing_self]
        cases op <;> rfl
      · rw [State.senderAt_rings, State.updRing_of_ne hb]
    case h_7 hsd =>
      obtain rfl := Option.some.inj hs
      unfold sendRing
      split
      · exact ⟨.send (by rw [hsd]; rfl) rfl rfl rfl, rfl⟩
      · exact ⟨.kept rfl (fun _ => State.rings_congr Ring.waker rfl rfl) rfl, rfl⟩
    case h_8 =>
      obtain rfl := Option.some.inj hs
      exact ⟨.kept rfl (fun _ => State.rings_congr Ring.waker rfl rfl) rfl, rfl⟩
    case h_9 =>
      split at hs <;> (obtain rfl := Option.some.inj hs; exact ⟨.kept rfl (fun _ => rfl) rfl, rfl⟩)
    case h_10 bytes w hsd =>
      obtain rfl := Option.some.inj hs
      refine ⟨.register (.inr ⟨bytes, hsd⟩) rfl ?_ (fun b hb => ?_) rfl, rfl⟩
      · rw [State.senderAt_rings, State.updRing_self]
      · rw [State.senderAt_rings, State.updRing_of_ne hb]
    case h_11 =>
      obtain rfl := Option.some.inj hs
      exact ⟨.kept rfl (fun _ => rfl) rfl, rfl⟩
    all_goals cases hs

/-- Wake-ups are not taken back. -/
theorem woken_isPrefix {a : Act} (hs : step config s a = some s') : s.woken <+: s'.woken := by
  rcases step_cases hs with hm | hm
  · rw [(senderMove_slots hm).2]
  · exact (writerMove_effect (b := 0) hm).woken_isPrefix

/-- A ring that was not sent yet has an empty slot. -/
def NewRingFree (s : State R) : Prop :=
  ∀ ring, s.sender.sending = some ring → (s.rings ring).waker = none

theorem reach_newRingFree (hr : (machine R config).Reach s) : NewRingFree s := by
  have h0 : NewRingFree (makeSender : State R) := by
    intro ring hsd
    cases hsd
  refine hr.invariant (I := NewRingFree) h0 ?_
  intro t a u h hs ring hsd
  rcases step_cases hs with hm | hm
  · cases (senderMove_slots hm).1 with
    | alloc _ hnone _ hring =>
      rw [hring] at hsd
      cases hsd; exact hnone
    | kept _ _ hs | send _ _ _ hs | register _ _ _ _ hs => rw [hs] at hsd; cases hsd
  · have hnone := h ring ((writerMove_sender hm).1 ▸ hsd)
    by_contra hne
    obtain ⟨w, hw⟩ := Option.ne_none_iff_exists'.mp hne
    rw [waker_writerMove hm hw] at hnone
    cases hnone

/-- The sender is about to register this notifier in a ring that the writer can still come to. -/
def State.Registers (s : State R) (p : Nat) : Prop :=
  (∃ bytes, s.sender = .registerWaker bytes (.notifier p)) ∧ s.ringBuf ∈ s.inReach

theorem mem_inReach_sender (hm : SenderMove s s') :
    b ∈ s'.inReach ↔ s.writer.ring? = some b ∨ b ∈ s'.queue ∨ s.writer.wakes = some b := by
  rw [mem_inReach, (senderMove_frame hm).writer]

/-- The sender adds a pointer by registering it, in no other way. -/
theorem registered_senderMove (hfree : NewRingFree s) (hm : SenderMove s s')
    (h : p ∈ s'.registered) : p ∈ s.registered ∨ s.Registers p := by
  have hsame : s'.queue = s.queue → ∀ b, b ∈ s'.inReach ↔ b ∈ s.inReach := by
    intro hq b
    rw [mem_inReach_sender hm, hq, mem_inReach]
  obtain ⟨b, hb, hw⟩ := mem_registered.mp h
  cases (senderMove_slots hm).1 with
  | kept hq hslots =>
    exact .inl (mem_registered.mpr ⟨b, (hsame hq b).mp hb, (hslots b) ▸ hw⟩)
  | alloc hq hnone hslots =>
    have hbf : b ≠ s.fresh := by
      rintro rfl
      rw [hnone] at hw; cases hw
    exact .inl (mem_registered.mpr ⟨b, (hsame hq b).mp hb, (hslots b hbf) ▸ hw⟩)
  | send hsd hq hslots =>
    rw [hslots] at hw
    rw [mem_inReach_sender hm, hq, List.mem_append, List.mem_singleton] at hb
    refine .inl (mem_registered.mpr ⟨b, mem_inReach.mpr ?_, hw⟩)
    rcases hb with hb | (hb | rfl) | hb
    · exact .inl hb
    · exact .inr (.inl hb)
    · rw [hfree _ hsd] at hw; cases hw
    · exact .inr (.inr hb)
  | register hreg hq hslot hslots =>
    rcases eq_or_ne b s.ringBuf with rfl | hne
    · obtain rfl := Option.some.inj (hslot.symm.trans hw)
      rcases hreg with hblock | hreg
      · cases hblock
      · exact .inr ⟨hreg, (hsame hq _).mp hb⟩
    · exact .inl (mem_registered.mpr ⟨b, (hsame hq b).mp hb, (hslots b hne) ▸ hw⟩)

/-- The call goes on with it before the user can do anything else. -/
theorem State.Registers.sender {a : Act} (h : s.Registers p) (ha : a.ofUser = true)
    (hs : step config s a = some s') : a = .sender := by
  obtain ⟨⟨bytes, hsd⟩, -⟩ := h
  cases a with
  | sender => rfl
  | call | repoll | dropSender => simp [step, hsd] at hs
  | _ => cases ha

/-- Registering does add it. -/
theorem registered_of_registers (h : s.Registers p) (hs : senderStep s = some s') :
    p ∈ s'.registered := by
  obtain ⟨⟨bytes, hsd⟩, hreach⟩ := h
  simp only [senderStep, hsd] at hs
  obtain rfl := Option.some.inj hs
  exact mem_registered.mpr ⟨s.ringBuf, hreach, by rw [State.senderAt_rings, State.updRing_self]⟩

/-! ### Taking a notifier -/

/-- The notifier that a step takes from its slot in order to call it. -/
def State.takes (s : State R) : Act → Option Nat
  | .writer => s.writer.wakes.bind fun b => (s.rings b).waker.bind Waker.this?
  | _ => none

/-- It was registered in a ring in reach. -/
theorem takes_registered {a : Act} (h : s.takes a = some p) : p ∈ s.registered := by
  cases a with
  | writer =>
    obtain ⟨b, hb, hw⟩ := Option.bind_eq_some_iff.mp h
    obtain ⟨w, hw, hp⟩ := Option.bind_eq_some_iff.mp hw
    rw [Waker.this?_eq_some.mp hp] at hw
    exact mem_registered.mpr ⟨b, mem_inReach.mpr (.inr (.inr hb)), hw⟩
  | _ => cases h

/-- A wake that is owed comes with the next step of the writer by itself. -/
theorem eq_writer_of_wakes {a : Act} (ha : a.ofUser = false) (hs : step config s a = some s')
    (hb : s.writer.wakes = some b) : a = .writer := by
  cases a with
  | writer => rfl
  | call | sender | repoll | dropSender => cases ha
  | abort =>
    simp only [step] at hs
    split at hs
    · rename_i ring hw
      cases hpc : s.writer <;> simp_all [WriterPc.awaits, WriterPc.wakes]
    · cases hs
  | tick | wrote | writeFails | shutdownOk | shutdownFails =>
    simp only [step] at hs
    split at hs
    · rename_i hw
      rw [hw] at hb; cases hb
    · cases hs

/-- Whoever is woken was taken from its slot by the same step. -/
theorem takes_of_woken {a : Act} (hs : step config s a = some s')
    (hw : s'.woken = s.woken ++ [.notifier p]) : s.takes a = some p := by
  cases ha : a.ofUser with
  | true =>
    rw [(senderMove_slots (step_user ha hs)).2] at hw
    simp at hw
  | false =>
    obtain ⟨b, hb, hslot⟩ := wakes_of_woken (step_writer ha hs) hw
    obtain rfl := eq_writer_of_wakes ha hs hb
    simp [State.takes, hb, hslot, Waker.this?]

end SocketManager.Outgoing
