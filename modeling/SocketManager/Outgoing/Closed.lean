import SocketManager.Outgoing.Waiting

/-! Calls on a sender whose writer is gone: the consumer of the current ring and the receiver of the
    channel are both dropped. Nothing the writer still does is visible to the sender then, so a call
    depends on the room left in the dead ring alone. `send_async` tests `is_closed` and `flush` has
    to send a ring, so both fail; `send_nonblock` fails only when it has to send a ring, and
    `send_block` never does: it stores what fits and polls a closed ring for the rest, for ever. -/

namespace SocketManager.Outgoing
variable {R : RingBuffer UInt8} {config : ConnConfig} {s t u : State R} {op : Op}
  {bytes : List UInt8}

/-- Free slots of the sender's current ring. -/
def State.room (s : State R) : Nat := (s.rings s.ringBuf).vacant

/-- The writer side is gone. -/
structure Gone (s : State R) : Prop where
  rx : s.rxHeld = false
  cons : (s.rings s.ringBuf).consHeld = false

/-- The call returns when the sender runs on, and whatever the interleaving it returns an error. -/
def Reports (config : ConnConfig) (s : State R) (op : Op) : Prop :=
  (∃ t c, (machine R config).Path OnlySender (startCall s op) t ∧ t.calls = s.calls ++ [c]) ∧
    ∀ t c, (machine R config).Path (fun _ _ => True) (startCall s op) t →
      t.calls = s.calls ++ [c] → ∃ kind, c.outcome = .err kind

/-! ### The writer no longer matters -/

/-- Only a running writer has an await to be aborted at. -/
theorem running_of_awaits {w : WriterPc} {r : Option Nat} (h : w.awaits = some r) :
    w.running = true := by
  cases w <;> first | rfl | cases h

/-- A writer that is returning leaves the content of every ring alone. -/
theorem returning_rb (hrun : s.writer.running = false) (hm : WriterMove config s t) (j : Nat) :
    (t.rings j).rb = (s.rings j).rb ∧ ((s.rings j).consHeld = false → (t.rings j).consHeld = false) := by
  have hsame : ∀ {r : Ring R} {i : Nat}, t.rings = Function.update s.rings i r →
      r.rb = (s.rings i).rb → (r.consHeld = false ∨ r.consHeld = (s.rings i).consHeld) →
      (t.rings j).rb = (s.rings j).rb ∧
        ((s.rings j).consHeld = false → (t.rings j).consHeld = false) := by
    intro r i ht hrb hcons
    refine ⟨State.rings_congr Ring.rb ht hrb, fun hc => ?_⟩
    rw [ht]
    rcases eq_or_ne j i with rfl | hji
    · rw [Function.update_self]
      rcases hcons with h | h
      · exact h
      · exact h.trans hc
    · rw [Function.update_of_ne hji]; exact hc
  cases hm with
  | unwindRing hw => exact hsame rfl rfl (.inl rfl)
  | unwindQueue hw _ _ => exact hsame rfl rfl (.inl rfl)
  | unwindWake hw => exact hsame rfl rfl (.inr rfl)
  | unwindRx hw _ => exact ⟨rfl, id⟩
  | returned hw _ _ => exact ⟨rfl, id⟩
  | abort hw => rw [running_of_awaits hw] at hrun; cases hrun
  | recv hw | finish hw | ready hw | readyNoFlush hw | closed hw | measure hw | drain hw | below hw
  | enough hw | tick hw | flushed hw | write hw | wrote hw | advance hw | wake hw | ringDropped hw
  | writeFails hw | shutdownOk hw | shutdownFails hw => rw [hw] at hrun; cases hrun

/-- Once the consumer of the current ring is dropped, what the writer does is not seen by the sender. -/
theorem dead_writerMove (hi : Inv s) (hc : (s.rings s.ringBuf).consHeld = false)
    (hm : WriterMove config s t) :
    (t.rings t.ringBuf).consHeld = false ∧ t.sender = s.sender ∧ t.calls = s.calls ∧
      t.room = s.room := by
  have hf := writerMove_frame hi.core hm
  have hring : (t.rings s.ringBuf).rb = (s.rings s.ringBuf).rb ∧
      (t.rings s.ringBuf).consHeld = false := by
    cases hrun : s.writer.running with
    | true =>
      -- a running writer holds the consumers of its chain, so this ring is not in it
      have hnot : s.ringBuf ∉ s.live := by
        intro hmem
        rw [(hi.core.running hrun).cons _ hmem] at hc; cases hc
      obtain ⟨hrb, hcons⟩ := hf.other _ hnot
      exact ⟨hrb, hcons.trans hc⟩
    | false =>
      obtain ⟨hrb, hcons⟩ := returning_rb hrun hm s.ringBuf
      exact ⟨hrb, hcons hc⟩
  refine ⟨by rw [hf.ringBuf]; exact hring.2, hf.sender, hf.calls, ?_⟩
  rw [State.room, State.room, hf.ringBuf, Ring.vacant, hring.1]; rfl

theorem writerMove_rxHeld (hm : WriterMove config s t) (hrx : s.rxHeld = false) :
    t.rxHeld = false := by
  cases hm with
  | unwindRx hw _ => rfl
  | @flushed ring k hw _ => cases k <;> exact hrx
  | _ => exact hrx

/-- What the writer changes after it is gone is not seen by the sender. -/
theorem Gone.writerMove (hg : Gone s) (hi : Inv s) (hm : WriterMove config s t) :
    Gone t ∧ t.sender = s.sender ∧ t.calls = s.calls ∧ t.room = s.room := by
  obtain ⟨hc, hrest⟩ := dead_writerMove hi hg.cons hm
  exact ⟨⟨writerMove_rxHeld hm hg.rx, hc⟩, hrest⟩

/-- Rule for a call on a dead sender. While the call is in progress `P` holds of the sender's locals
    and of the room in its ring; when it returns, `Q` holds of its result. -/
theorem Gone.call_rule {P : SenderPc → Nat → Prop} {Q : Call → Prop} {s₀ : State R}
    (hi : Inv s) (hg : Gone s) (hcalls : s.calls = s₀.calls) (hP : P s.sender s.room)
    (hstep : ∀ t u : State R, Inv t → Gone t → P t.sender t.room → SenderMove t u →
      (Gone u ∧ u.calls = t.calls ∧ P u.sender u.room) ∨ ∃ c, u.calls = t.calls ++ [c] ∧ Q c)
    (hp : (machine R config).Path (fun _ _ => True) s t) :
    t.calls = s₀.calls ∨ ∃ c more, t.calls = s₀.calls ++ c :: more ∧ Q c := by
  have hall : Inv t ∧ ((Gone t ∧ t.calls = s₀.calls ∧ P t.sender t.room) ∨
      ∃ c more, t.calls = s₀.calls ++ c :: more ∧ Q c) := by
    refine hp.invariant (I := fun t => Inv t ∧ ((Gone t ∧ t.calls = s₀.calls ∧ P t.sender t.room) ∨
      ∃ c more, t.calls = s₀.calls ++ c :: more ∧ Q c)) ⟨hi, .inl ⟨hg, hcalls, hP⟩⟩ ?_
    rintro t a u - ⟨ht, hcase⟩ hs
    refine ⟨(ht.step hs).inv, ?_⟩
    rcases hcase with ⟨hgt, hct, hPt⟩ | ⟨c, more, hct, hQ⟩
    · rcases step_cases hs with hm | hm
      · rcases hstep t u ht hgt hPt hm with ⟨hgu, hcu, hPu⟩ | ⟨c, hcu, hQ⟩
        · exact .inl ⟨hgu, hcu.trans hct, hPu⟩
        · exact .inr ⟨c, [], by rw [hcu, hct], hQ⟩
      · obtain ⟨hgu, hsd, hcu, hroom⟩ := hgt.writerMove ht hm
        exact .inl ⟨hgu, hcu.trans hct, by rw [hsd, hroom]; exact hPt⟩
    · -- the call has returned: later calls only come behind it
      rcases returns_step ht hs with hcu | ⟨c', -, hcu⟩
      · exact .inr ⟨c, more, hcu.trans hct, hQ⟩
      · exact .inr ⟨c, more ++ [c'], by rw [hcu, hct]; simp, hQ⟩
  rcases hall.2 with ⟨-, hct, -⟩ | hret
  · exact .inl hct
  · exact .inr hret

/-- The rule with `Q` an error, in the form `Reports` asks for. -/
theorem Gone.err_of_rule {s₀ : State R} {c : Call}
    (h : t.calls = s₀.calls ∨ ∃ c more, t.calls = s₀.calls ++ c :: more ∧ ∃ kind, c.outcome = .err kind)
    (hc : t.calls = s₀.calls ++ [c]) : ∃ kind, c.outcome = .err kind := by
  rcases h with heq | ⟨c', more, heq, hQ⟩
  · rw [heq] at hc
    simp at hc
  · rw [heq] at hc
    obtain ⟨rfl, -⟩ := List.cons.inj (List.append_cancel_left hc)
    exact hQ

/-- A call in progress moves only by its own steps. -/
theorem senderMove_inProgress (hm : SenderMove t u) (hidle : t.sender ≠ .idle)
    (hpoll : ∀ bytes offset, t.sender ≠ .pollPending bytes offset) : senderStep t = some u := by
  cases hm with
  | call op hs => exact absurd hs hidle
  | step hs => exact hs
  | repoll hs => exact absurd hs (hpoll _ _)
  | drop hs => exact absurd hs hidle

/-! ### Single steps on a dead sender -/

theorem Gone.senderAt (hg : Gone s) (pc : SenderPc) : Gone (s.senderAt pc) := ⟨hg.rx, hg.cons⟩

theorem Gone.push (hg : Gone s) : Gone (s.updRing s.ringBuf (·.push bytes)) :=
  ⟨hg.rx, State.updRing_imp (·.consHeld = false) id hg.cons⟩

/-- The pushes of a burst use up the room. -/
theorem room_push (s : State R) (bytes : List UInt8) : (s.updRing s.ringBuf (·.push bytes)).room =
    s.room - (s.rings s.ringBuf).pushCount bytes := by
  have hself : (s.updRing s.ringBuf (·.push bytes)).rings s.ringBuf =
      (s.rings s.ringBuf).push bytes := State.updRing_self
  rw [State.room, State.updRing_ringBuf, hself]
  exact R.vacant_pushSlice _ _

theorem pushCount_eq : (s.rings s.ringBuf).pushCount bytes = min bytes.length s.room :=
  R.pushSlice_count_eq _ _

/-- A round of `burst_write` with less room than the rest of the message needs. -/
theorem burstWrite_short (op : Op) {offset : Nat} (hshort : offset + s.room < op.bytes.length) :
    burstWrite s op offset false =
      if s.room = 0 then
        burstPending (s.updRing s.ringBuf (·.push (op.bytes.drop offset))) op offset false
      else (s.updRing s.ringBuf (·.push (op.bytes.drop offset))).senderAt
        (.burstWrite op (offset + s.room) false) := by
  have hn : (s.rings s.ringBuf).pushCount (op.bytes.drop offset) = s.room := by
    rw [pushCount_eq, List.length_drop]; omega
  have hfin : offset + s.room ≠ op.bytes.length := by omega
  simp only [burstWrite, hn, if_neg hfin]

/-- The rest of the message fits: one round, and the burst is finished. -/
theorem burstWrite_fits (op : Op) {offset : Nat} (registered : Bool) (hlt : offset < op.bytes.length)
    (hfits : op.bytes.length ≤ offset + s.room) :
    burstWrite s op offset registered =
      burstFinished (s.updRing s.ringBuf (·.push (op.bytes.drop offset))) op op.bytes.length := by
  have hn : (s.rings s.ringBuf).pushCount (op.bytes.drop offset) = op.bytes.length - offset := by
    rw [pushCount_eq, List.length_drop]; omega
  have hn0 : op.bytes.length - offset ≠ 0 := by omega
  have hfin : offset + (op.bytes.length - offset) = op.bytes.length := by omega
  simp only [burstWrite, hn, if_neg hn0, hfin, if_true]

/-! ### `send_async` -/

theorem senderStep_checkClosed {waker : Waker} {registered : Bool} (hg : Gone s)
    (hs : s.sender = .checkClosed bytes waker registered) :
    senderStep s = some (s.ret (.sendAsync bytes waker) (.err .other) 0) := by
  simp only [senderStep, hs, hg.cons, if_true]

theorem reports_sendAsync {waker : Waker} (hi : Inv s) (hg : Gone s) (hs : s.sender = .idle)
    (hne : bytes ≠ []) : Reports config s (.sendAsync bytes waker) := by
  have hi' := (hi.startCall (.sendAsync bytes waker) hs).inv
  have hcall : startCall s (.sendAsync bytes waker) = s.senderAt (.checkClosed bytes waker false) := by
    simp only [startCall, if_neg hne]
  rw [Reports, hcall]
  rw [hcall] at hi'
  have hg' := hg.senderAt (.checkClosed bytes waker false)
  refine ⟨⟨_, _, OnlySender.tail .refl (senderStep_checkClosed hg' rfl), rfl⟩, ?_⟩
  intro t c hp hc
  refine Gone.err_of_rule (Gone.call_rule (P := fun pc _ => pc = .checkClosed bytes waker false)
    hi' hg' rfl rfl ?_ hp) hc
  intro t u _ hgt hpc hm
  have hstep := senderMove_inProgress hm (by rw [hpc]; simp) (by rw [hpc]; simp)
  rw [senderStep_checkClosed hgt hpc] at hstep
  obtain rfl := Option.some.inj hstep
  exact .inr ⟨_, rfl, _, rfl⟩

/-! ### Sending a new ring -/

/-- The call is about to allocate a ring or to send it. -/
def Spilling (op : Op) (pc : SenderPc) : Prop :=
  (∃ offset, pc = .newRing op offset) ∨ ∃ offset ring, pc = .sendRing op offset ring

/-- Both steps on a dead sender: the allocation, and the send that fails. -/
theorem spilling_step (hi : Inv s) (hg : Gone s) (hs : Spilling op s.sender)
    (hstep : senderStep s = some t) :
    (Gone t ∧ t.calls = s.calls ∧ (∃ offset, s.sender = .newRing op offset) ∧
      ∃ offset ring, t.sender = .sendRing op offset ring) ∨
    ∃ c, t.calls = s.calls ++ [c] ∧ ∃ kind, c.outcome = .err kind := by
  rcases hs with ⟨offset, hpc⟩ | ⟨offset, ring, hpc⟩
  · simp only [senderStep, hpc] at hstep
    obtain rfl := Option.some.inj hstep
    refine .inl ⟨⟨hg.rx, ?_⟩, rfl, ⟨offset, hpc⟩, offset, s.fresh, rfl⟩
    have hother : ({ s with fresh := s.fresh + 1 }.updRing s.fresh fun _ =>
        allocRing op offset).rings s.ringBuf = s.rings s.ringBuf :=
      State.updRing_of_ne hi.ringBuf_lt.ne
    exact (congrArg Ring.consHeld hother).trans hg.cons
  · simp only [senderStep, hpc, sendRing, hg.rx] at hstep
    obtain rfl := Option.some.inj hstep
    exact .inr ⟨_, rfl, _, rfl⟩

theorem senderStep_spilling (hs : Spilling op s.sender) : ∃ t, senderStep s = some t := by
  rcases hs with ⟨offset, hpc⟩ | ⟨offset, ring, hpc⟩ <;> simp only [senderStep, hpc]
  · exact ⟨_, rfl⟩
  · exact ⟨_, rfl⟩

/-- A call that has to send a ring returns. -/
theorem spilling_returns {s₀ : State R} {offset : Nat} (hi : Inv s) (hg : Gone s)
    (hs : s.sender = .newRing op offset) (hp : (machine R config).Path OnlySender s₀ s) :
    ∃ t c, (machine R config).Path OnlySender s₀ t ∧ t.calls = s.calls ++ [c] := by
  have hspill : Spilling op s.sender := .inl ⟨offset, hs⟩
  obtain ⟨t, ht⟩ := senderStep_spilling hspill
  have hpt := OnlySender.tail hp ht
  rcases spilling_step hi hg hspill ht with ⟨hgt, hct, -, hpc⟩ | ⟨c, hc, -⟩
  · have hit := (hi.senderStep ht).inv
    obtain ⟨u, hu⟩ := senderStep_spilling (.inr hpc)
    rcases spilling_step hit hgt (.inr hpc) hu with ⟨-, -, ⟨o, ho⟩, -⟩ | ⟨c, hc, -⟩
    · obtain ⟨o', r, hpc⟩ := hpc
      rw [hpc] at ho; cases ho
    · exact ⟨u, c, OnlySender.tail hpt hu, by rw [hc, hct]⟩
  · exact ⟨t, c, hpt, hc⟩

theorem spilling_move (hi : Inv s) (hg : Gone s) (hs : Spilling op s.sender) (hm : SenderMove s t) :
    (Gone t ∧ t.calls = s.calls ∧ Spilling op t.sender) ∨
    ∃ c, t.calls = s.calls ++ [c] ∧ ∃ kind, c.outcome = .err kind := by
  have hstep : senderStep s = some t := by
    refine senderMove_inProgress hm ?_ ?_ <;>
      rcases hs with ⟨offset, hpc⟩ | ⟨offset, ring, hpc⟩ <;> rw [hpc] <;> simp
  rcases spilling_step hi hg hs hstep with ⟨hgt, hct, -, hpc⟩ | hret
  · exact .inl ⟨hgt, hct, .inr hpc⟩
  · exact .inr hret

theorem reports_flush (hi : Inv s) (hg : Gone s) (hs : s.sender = .idle) :
    Reports config s .flush := by
  have hi' := (hi.startCall .flush hs).inv
  have hg' := hg.senderAt (.newRing .flush 0)
  refine ⟨spilling_returns (s := startCall s .flush) hi' hg' rfl .refl, ?_⟩
  intro t c hp hc
  refine Gone.err_of_rule (Gone.call_rule (P := fun pc _ => Spilling .flush pc)
    hi' hg' rfl (.inl ⟨0, rfl⟩) ?_ hp) hc
  intro t u hit hgt hpc hm
  exact spilling_move hit hgt hpc hm

/-! ### `send_nonblock` -/

/-- A `send_nonblock` that will have to send a ring. -/
def Overflowing (op : Op) (pc : SenderPc) (room : Nat) : Prop :=
  (∃ offset, pc = .burstWrite op offset false ∧ offset + room < op.bytes.length) ∨ Spilling op pc

theorem overflowing_move (hi : Inv s) (hg : Gone s)
    (hs : Overflowing (.sendNonblock bytes) s.sender s.room) (hm : SenderMove s t) :
    (Gone t ∧ t.calls = s.calls ∧ Overflowing (.sendNonblock bytes) t.sender t.room) ∨
    ∃ c, t.calls = s.calls ++ [c] ∧ ∃ kind, c.outcome = .err kind := by
  rcases hs with ⟨offset, hpc, hshort⟩ | hspill
  · have hstep := senderMove_inProgress hm (by rw [hpc]; simp) (by rw [hpc]; simp)
    simp only [senderStep, hpc, burstWrite_short _ hshort] at hstep
    obtain rfl := Option.some.inj hstep
    left
    split
    · exact ⟨hg.push.senderAt _, rfl, .inr (.inl ⟨offset, rfl⟩)⟩
    · refine ⟨hg.push.senderAt _, rfl, .inl ⟨offset + s.room, rfl, ?_⟩⟩
      have hroom := room_push s ((Op.sendNonblock bytes).bytes.drop offset)
      rw [pushCount_eq, List.length_drop] at hroom
      show offset + s.room + (s.updRing s.ringBuf (·.push _)).room < _
      rw [hroom]
      omega
  · rcases spilling_move hi hg hspill hm with ⟨hgt, hct, hpc⟩ | hret
    · exact .inl ⟨hgt, hct, .inr hpc⟩
    · exact .inr hret

theorem startCall_burst (hop : op = .sendBlock bytes ∨ op = .sendNonblock bytes) (hne : bytes ≠ []) :
    startCall s op = s.senderAt (.burstWrite op 0 false) := by
  rcases hop with rfl | rfl <;> simp only [startCall, if_neg hne]

/-- An overflowing `send_nonblock` returns: at most two rounds of `burst_write`, then the ring. -/
theorem overflowing_returns {offset : Nat} {s₀ : State R} (hi : Inv s) (hg : Gone s)
    (hs : s.sender = .burstWrite (.sendNonblock bytes) offset false)
    (hshort : offset + s.room < bytes.length) (hp : (machine R config).Path OnlySender s₀ s) :
    ∃ t c, (machine R config).Path OnlySender s₀ t ∧ t.calls = s.calls ++ [c] := by
  have hfull : ∀ (t : State R) (offset : Nat), Inv t → Gone t → t.room = 0 →
      t.sender = .burstWrite (.sendNonblock bytes) offset false → offset < bytes.length →
      (machine R config).Path OnlySender s₀ t →
      ∃ u c, (machine R config).Path OnlySender s₀ u ∧ u.calls = t.calls ++ [c] := by
    intro t offset hit hgt hroom hst hoff hpt
    have hstep : senderStep t = some ((t.updRing t.ringBuf (·.push (bytes.drop offset))).senderAt
        (.newRing (.sendNonblock bytes) offset)) := by
      simp only [senderStep, hst, burstWrite_short (s := t) (.sendNonblock bytes)
        (by rw [hroom]; exact hoff), hroom, if_true]
      rfl
    exact spilling_returns (s := (t.updRing t.ringBuf (·.push (bytes.drop offset))).senderAt
      (.newRing (.sendNonblock bytes) offset)) (hit.senderStep hstep).inv (hgt.push.senderAt _) rfl
      (OnlySender.tail hpt hstep)
  by_cases hroom : s.room = 0
  · exact hfull s offset hi hg hroom hs (by omega) hp
  · have hstep : senderStep s = some ((s.updRing s.ringBuf (·.push (bytes.drop offset))).senderAt
        (.burstWrite (.sendNonblock bytes) (offset + s.room) false)) := by
      simp only [senderStep, hs, burstWrite_short (s := s) (.sendNonblock bytes) hshort,
        if_neg hroom]
      rfl
    refine hfull ((s.updRing s.ringBuf (·.push (bytes.drop offset))).senderAt
      (.burstWrite (.sendNonblock bytes) (offset + s.room) false)) (offset + s.room)
      (hi.senderStep hstep).inv (hg.push.senderAt _) ?_ rfl hshort (OnlySender.tail hp hstep)
    refine (room_push s _).trans ?_
    rw [pushCount_eq, List.length_drop]
    omega

theorem reports_sendNonblock (hi : Inv s) (hg : Gone s) (hs : s.sender = .idle)
    (hshort : s.room < bytes.length) : Reports config s (.sendNonblock bytes) := by
  have hne : bytes ≠ [] := List.length_pos_iff.mp (Nat.zero_lt_of_lt hshort)
  have hi' := (hi.startCall (.sendNonblock bytes) hs).inv
  rw [startCall_burst (.inr rfl) hne] at hi'
  rw [Reports, startCall_burst (.inr rfl) hne]
  have hg' := hg.senderAt (.burstWrite (.sendNonblock bytes) 0 false)
  have hroom : 0 + s.room < bytes.length := by omega
  refine ⟨overflowing_returns (s := s.senderAt (.burstWrite (.sendNonblock bytes) 0 false)) hi' hg'
    rfl hroom .refl, ?_⟩
  intro t c hp hc
  refine Gone.err_of_rule (Gone.call_rule (P := Overflowing (.sendNonblock bytes))
    hi' hg' rfl (.inl ⟨0, rfl, hroom⟩) ?_ hp) hc
  intro t u hit hgt hpc hm
  exact overflowing_move hit hgt hpc hm

/-! ### `send_block` -/

/-- A message that fits into the dead ring is reported as sent. -/
theorem fits_returns_ok (config : ConnConfig)
    (hop : op = .sendBlock bytes ∨ op = .sendNonblock bytes) (hne : bytes ≠ [])
    (hfits : bytes.length ≤ s.room) :
    ∃ t, (machine R config).Path OnlySender (startCall s op) t ∧
      t.calls = s.calls ++ [⟨op, .ok, bytes.length⟩] := by
  have hb : op.bytes = bytes := by rcases hop with rfl | rfl <;> rfl
  rw [startCall_burst hop hne]
  have hstep : senderStep (s.senderAt (.burstWrite op 0 false)) =
      some (burstFinished ((s.senderAt (.burstWrite op 0 false)).updRing s.ringBuf
        (·.push op.bytes)) op op.bytes.length) := by
    simp only [senderStep, State.senderAt_sender]
    refine congrArg some (burstWrite_fits (s := s.senderAt (.burstWrite op 0 false)) op false ?_ ?_)
    · rw [hb]; exact List.length_pos_iff.mpr hne
    · rw [hb, Nat.zero_add]; exact hfits
  refine ⟨_, OnlySender.tail .refl hstep, ?_⟩
  rcases hop with rfl | rfl <;> rfl

/-- A `send_block` that does not fit: it is in its burst, or polls the closed ring. -/
def Spinning (bytes : List UInt8) (pc : SenderPc) (room : Nat) : Prop :=
  (∃ offset, pc = .burstWrite (.sendBlock bytes) offset false ∧ offset + room < bytes.length) ∨
    ∃ offset, pc = .pollWrite bytes offset ∧ offset < bytes.length

theorem spinning_move (hc : (s.rings s.ringBuf).consHeld = false)
    (hs : Spinning bytes s.sender s.room) (hm : SenderMove s t) :
    (t.rings t.ringBuf).consHeld = false ∧ t.calls = s.calls ∧ Spinning bytes t.sender t.room := by
  rcases hs with ⟨offset, hpc, hshort⟩ | ⟨offset, hpc, hoff⟩
  · have hstep := senderMove_inProgress hm (by rw [hpc]; simp) (by rw [hpc]; simp)
    simp only [senderStep, hpc, burstWrite_short (.sendBlock bytes) hshort] at hstep
    obtain rfl := Option.some.inj hstep
    have hdead : ((s.updRing s.ringBuf (·.push (bytes.drop offset))).rings s.ringBuf).consHeld =
        false := State.updRing_imp (·.consHeld = false) id hc
    split
    · exact ⟨hdead, rfl, .inr ⟨offset, rfl, by omega⟩⟩
    · refine ⟨hdead, rfl, .inl ⟨offset + s.room, rfl, ?_⟩⟩
      have hroom := room_push s (bytes.drop offset)
      rw [pushCount_eq, List.length_drop] at hroom
      show offset + s.room + (s.updRing s.ringBuf (·.push (bytes.drop offset))).room < _
      rw [hroom]
      omega
  · -- `poll_write` on a closed ring takes no byte and is ready at once
    have hstep := senderMove_inProgress hm (by rw [hpc]; simp) (by rw [hpc]; simp)
    simp only [senderStep, hpc, pollWrite_of_closed hc hoff] at hstep
    obtain rfl := Option.some.inj hstep
    exact ⟨hc, rfl, .inr ⟨offset, rfl, hoff⟩⟩

/-- A `send_block` that does not fit into the dead ring never returns. -/
theorem spinning_never_returns (hi : Inv s) (hg : Gone s) (hs : s.sender = .idle)
    (hshort : s.room < bytes.length) {c : Call}
    (hp : (machine R config).Path (fun _ _ => True) (startCall s (.sendBlock bytes)) t) :
    t.calls ≠ s.calls ++ [c] := by
  have hne : bytes ≠ [] := List.length_pos_iff.mp (Nat.zero_lt_of_lt hshort)
  have hi' := (hi.startCall (.sendBlock bytes) hs).inv
  rw [startCall_burst (.inl rfl) hne] at hi' hp
  have hroom : 0 + s.room < bytes.length := by omega
  intro hc
  have hcalls : (s.senderAt (.burstWrite (.sendBlock bytes) 0 false)).calls = s.calls := rfl
  have hmove : ∀ t u : State R, Inv t → Gone t → Spinning bytes t.sender t.room → SenderMove t u →
      (Gone u ∧ u.calls = t.calls ∧ Spinning bytes u.sender u.room) ∨
        ∃ c, u.calls = t.calls ++ [c] ∧ False := by
    intro t u _ hgt hpc hm
    obtain ⟨hcu, hcalls, hsp⟩ := spinning_move hgt.cons hpc hm
    exact .inl ⟨⟨(senderMove_frame hm).rxHeld.trans hgt.rx, hcu⟩, hcalls, hsp⟩
  rcases Gone.call_rule (P := Spinning bytes) (Q := fun _ => False) hi' (hg.senderAt _) hcalls
    (.inl ⟨0, rfl, hroom⟩) hmove hp with heq | ⟨_, _, -, hF⟩
  · rw [heq] at hc
    simp at hc
  · exact hF

/-! ### When a call reports the closed connection -/

theorem not_reports_sendBlock (hi : Inv s) (hg : Gone s) (hs : s.sender = .idle) (hne : bytes ≠ []) :
    ¬ Reports config s (.sendBlock bytes) := by
  rintro ⟨⟨t, c, hp, hc⟩, hall⟩
  by_cases hfits : bytes.length ≤ s.room
  · obtain ⟨t, ht, hct⟩ := fits_returns_ok config (.inl rfl) hne hfits
    obtain ⟨kind, hk⟩ := hall t _ (ht.mono fun _ _ _ => trivial) hct
    cases hk
  · exact spinning_never_returns hi hg hs (Nat.lt_of_not_le hfits) (hp.mono fun _ _ _ => trivial) hc

theorem not_reports_of_fits (hne : bytes ≠ []) (hfits : bytes.length ≤ s.room) :
    ¬ Reports config s (.sendNonblock bytes) := by
  rintro ⟨-, hall⟩
  obtain ⟨t, ht, hct⟩ := fits_returns_ok config (.inr rfl) hne hfits
  obtain ⟨kind, hk⟩ := hall t _ (ht.mono fun _ _ _ => trivial) hct
  cases hk

/-- With the writer side gone, exactly `send_async`, `flush` and a `send_nonblock` longer than the
    room left in the dead ring report it. -/
theorem reports_closed_iff (R : RingBuffer UInt8) (config : ConnConfig) (s : State R) (op : Op)
    (hr : (machine R config).Reach s) (hs : s.sender = .idle) (hrx : s.rxHeld = false)
    (hc : (s.rings s.ringBuf).consHeld = false) (hop : op = .flush ∨ op.bytes ≠ []) :
    Reports config s op ↔
      op = .flush ∨ (∃ bytes waker, op = .sendAsync bytes waker) ∨
        ∃ bytes, op = .sendNonblock bytes ∧ (s.rings s.ringBuf).vacant < bytes.length := by
  have hi := reach_inv hr
  have hg : Gone s := ⟨hrx, hc⟩
  cases op with
  | flush => exact ⟨fun _ => .inl rfl, fun _ => reports_flush hi hg hs⟩
  | sendAsync bytes waker =>
    have hne : bytes ≠ [] := hop.resolve_left (by simp)
    exact ⟨fun _ => .inr (.inl ⟨bytes, waker, rfl⟩), fun _ => reports_sendAsync hi hg hs hne⟩
  | sendNonblock bytes =>
    have hne : bytes ≠ [] := hop.resolve_left (by simp)
    constructor
    · intro hrep
      refine .inr (.inr ⟨bytes, rfl, ?_⟩)
      by_contra hge
      exact not_reports_of_fits hne (Nat.le_of_not_lt hge) hrep
    · rintro (h | ⟨_, _, h⟩ | ⟨_, h, hshort⟩)
      · cases h
      · cases h
      · cases h
        exact reports_sendNonblock hi hg hs hshort
  | sendBlock bytes =>
    have hne : bytes ≠ [] := hop.resolve_left (by simp)
    constructor
    · intro hrep
      exact absurd hrep (not_reports_sendBlock hi hg hs hne)
    · rintro (h | ⟨_, _, h⟩ | ⟨_, h, -⟩) <;> cases h

/-- The writer task is aborted before it takes its first ring. -/
def abortWriter : List Act := [.abort, .writer, .writer, .writer, .writer]

/-- The state after `abortWriter`, with the facts the results here ask for. -/
theorem reach_abortWriter :
    ∃ s : State (RingBuffer.circular UInt8), (machine _ ⟨0, 0, 0⟩).Reach s ∧ s.sender = .idle ∧
      s.rxHeld = false ∧ (s.rings s.ringBuf).consHeld = false ∧ 1 ≤ s.room := by
  obtain ⟨s, hr, hp⟩ := Machine.reach_of_run
    (m := machine (RingBuffer.circular UInt8) ⟨0, 0, 0⟩) abortWriter
    (fun s => s.sender = .idle ∧ s.rxHeld = false ∧ (s.rings s.ringBuf).consHeld = false ∧ 1 ≤ s.room)
    (by decide +kernel)
  exact ⟨s, hr, of_decide_eq_true hp⟩

/-- A `send_block` of one byte after the abort returns `Ok`. -/
theorem send_block_not_reported :
    ∃ s : State (RingBuffer.circular UInt8), (machine _ ⟨0, 0, 0⟩).Reach s ∧ s.sender = .idle ∧
      s.rxHeld = false ∧ (s.rings s.ringBuf).consHeld = false ∧
      (∃ t, (machine _ ⟨0, 0, 0⟩).Path OnlySender (startCall s (.sendBlock [1])) t ∧
        t.calls = s.calls ++ [⟨.sendBlock [1], .ok, 1⟩]) ∧
      ¬ Reports ⟨0, 0, 0⟩ s (.sendBlock [1]) := by
  obtain ⟨s, hr, hs, hrx, hc, hroom⟩ := reach_abortWriter
  exact ⟨s, hr, hs, hrx, hc, fits_returns_ok _ (.inl rfl) (by simp) hroom,
    not_reports_sendBlock (reach_inv hr) ⟨hrx, hc⟩ hs (by simp)⟩

theorem reports_closed_iff_abortWriter :
    ∃ s : State (RingBuffer.circular UInt8), (machine _ ⟨0, 0, 0⟩).Reach s ∧ s.sender = .idle ∧
      s.rxHeld = false ∧ (s.rings s.ringBuf).consHeld = false ∧ Reports ⟨0, 0, 0⟩ s .flush := by
  obtain ⟨s, hr, hs, hrx, hc, -⟩ := reach_abortWriter
  exact ⟨s, hr, hs, hrx, hc, (reports_closed_iff _ _ s .flush hr hs hrx hc (.inl rfl)).mpr (.inl rfl)⟩

end SocketManager.Outgoing
