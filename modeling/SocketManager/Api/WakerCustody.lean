import SocketManager.Api.Waker
import SocketManager.Lib.Custody
import SocketManager.Lib.Log

/-! The wakers handed to the C++ side are released once. An object with two pointers owns its waker, an
    object with a null pointer owns nothing, and what was freed is on the log, so the objects and the log
    are a `Custody` of the wakers and each special member is an operation on it:

        from_waker              issue to the temporary
        Waker(Waker &&)         move to the new object
        operator=(Waker &&)     release, then move, also from the object to itself
        ~Waker                  release

    The temporary and the `drop_waker` of a call are objects too; they live no longer than the call. -/

namespace SocketManager.Api

namespace Wakers
variable {s s' : Wakers} {o dst src tmp : Nat} {w : CWaker} {x : WakerObject}

/-- What an object owns. -/
def owned (s : Wakers) (o : Nat) : Option CWaker :=
  ((s.objects o).map WakerObject.waker).filter CWaker.nonNull

/-- The waker that an event frees. -/
def freedBy : WakerEvent → Option CWaker
  | .freed w => some w
  | .woken _ => none

def custody (s : Wakers) : Custody Nat CWaker := ⟨s.owned, s.log.filterMap freedBy⟩

/-- The wakers handed over that must be freed. -/
def issued (s : Wakers) : Set CWaker := {w | w ∈ s.handed ∧ w.nonNull = true}

theorem owned_eq_some :
    s.owned o = some w ↔ ∃ x, s.objects o = some x ∧ x.waker = w ∧ w.nonNull = true := by
  rw [owned, Option.filter_eq_some_iff, Option.map_eq_some_iff]
  constructor
  · rintro ⟨⟨x, hx, rfl⟩, hn⟩
    exact ⟨x, hx, rfl, hn⟩
  · rintro ⟨x, hx, rfl, hn⟩
    exact ⟨⟨x, hx, rfl⟩, hn⟩

theorem owned_of_objects (h : s.objects o = some x) :
    s.owned o = (some x.waker).filter CWaker.nonNull := by
  rw [owned, h, Option.map_some]

theorem owned_of_none (h : s.objects o = none) : s.owned o = none := by
  rw [owned, h]; rfl

theorem mem_released : w ∈ s.custody.released ↔ .freed w ∈ s.log := by
  rw [custody, List.mem_filterMap]
  constructor
  · rintro ⟨e, he, hw⟩
    cases e with
    | freed v => cases hw; exact he
    | woken v => cases hw
  · exact fun h => ⟨_, h, rfl⟩

theorem count_released : s.custody.released.count w = s.log.count (.freed w) := by
  change (s.log.filterMap freedBy).count w = _
  induction s.log with
  | nil => rfl
  | cons e log ih =>
    cases e with
    | freed v =>
      rw [List.filterMap_cons_some (f := freedBy) rfl, List.count_cons, List.count_cons, ih]
      simp
    | woken v =>
      rw [List.filterMap_cons_none (f := freedBy) rfl, ih, List.count_cons]
      simp

theorem owned_update (s : Wakers) (o : Nat) (x : Option WakerObject) :
    ({ s with objects := Function.update s.objects o x } : Wakers).owned =
      Function.update s.owned o ((x.map WakerObject.waker).filter CWaker.nonNull) :=
  Function.comp_update (Option.filter CWaker.nonNull ∘ Option.map WakerObject.waker) s.objects o x

theorem custody_construct (s : Wakers) (storage : Storage) (w : CWaker) :
    (s.construct storage w).custody = s.custody.give s.fresh ((some w).filter CWaker.nonNull) :=
  congrArg (Custody.mk · _) (owned_update s s.fresh (some ⟨storage, w⟩))

theorem custody_write (h : s.objects o = some x) (w : CWaker) :
    (s.write o w).custody = s.custody.give o ((some w).filter CWaker.nonNull) := by
  rw [write, h]
  exact congrArg (Custody.mk · _) (owned_update s o (some ⟨x.storage, w⟩))

theorem custody_write_nullOut (s : Wakers) (o : Nat) (w : CWaker) :
    (s.write o w.nullOut).custody = s.custody.give o none := by
  cases h : s.objects o with
  | none =>
    rw [write, h]
    exact congrArg (Custody.mk · _) (owned_update s o none)
  | some x => rw [custody_write h]; rfl

theorem custody_erase (s : Wakers) (o : Nat) :
    ({ s with objects := Function.update s.objects o none } : Wakers).custody =
      s.custody.give o none :=
  congrArg (Custody.mk · _) (owned_update s o none)

theorem custody_free (s : Wakers) (w : CWaker) : (s.free w).custody =
    ⟨s.custody.holds, s.custody.released ++ ((some w).filter CWaker.nonNull).toList⟩ := by
  cases hn : w.nonNull with
  | true =>
    rw [free, if_pos hn, Option.filter_some_pos hn]
    exact congrArg (Custody.mk s.owned) List.filterMap_append
  | false =>
    rw [free, if_neg (by simp [hn]), Option.filter_some_neg hn, Option.toList_none,
      List.append_nil]

theorem custody_moveInit (h : s.objects src = some x) (storage : Storage) :
    (s.moveInit storage src x.waker).custody = s.custody.move s.fresh src := by
  rw [moveInit, custody_write_nullOut, custody_construct, ← owned_of_objects h]
  rfl

theorem custody_destroy (s : Wakers) (o : Nat) : (s.destroy o).custody = s.custody.release o := by
  cases h : s.objects o with
  | none =>
    have hown : s.custody.holds o = none := owned_of_none h
    have hdestroy : s.destroy o = s := by rw [destroy, h]
    have hsame : Function.update s.custody.holds o none = s.custody.holds := by
      rw [← hown, Function.update_eq_self]
    rw [hdestroy, Custody.release, hsame, hown, Option.toList_none, List.append_nil]
  | some x =>
    have hdestroy : s.destroy o =
        { s.free x.waker with objects := Function.update (s.free x.waker).objects o none } := by
      rw [destroy, h]
    rw [hdestroy, custody_erase, custody_free, ← owned_of_objects h]
    rfl

theorem custody_assign {y : WakerObject} (hx : s.objects dst = some x) (hy : s.objects src = some y) :
    (s.assign dst src x.waker y.waker).custody = (s.custody.release dst).move dst src := by
  have hx' : (s.free x.waker).objects dst = some x := by
    rw [free]; split <;> exact hx
  rw [assign, custody_write_nullOut, custody_write hx', custody_free, ← owned_of_objects hx,
    ← owned_of_objects hy, Custody.move_release]
  rfl

/-! ### The invariant -/

/-- No waker is woken after it was freed. -/
def WokenLive (log : List WakerEvent) : Prop :=
  ∀ pre e post, log = pre ++ e :: post → ∀ w, e = .woken w → .freed w ∉ pre

theorem wokenLive_free (h : WokenLive s.log) (w : CWaker) : WokenLive (s.free w).log := by
  rw [free]
  split
  · exact Log.forall_concat h fun v hv => by cases hv
  · exact h

theorem wokenLive_destroy (h : WokenLive s.log) (o : Nat) : WokenLive (s.destroy o).log := by
  rw [destroy]
  split
  · exact wokenLive_free h _
  · exact h

/-- What holds of the objects at any time. -/
structure Inv (s : Wakers) : Prop where
  sound : s.custody.Sound s.issued
  unborn : ∀ o, s.fresh ≤ o → s.objects o = none
  numbered : ∀ w ∈ s.handed, w.handOver < s.handed.length
  wokenLive : WokenLive s.log

theorem Inv.owned_fresh (h : s.Inv) : s.custody.holds s.fresh = none :=
  owned_of_none (h.unborn _ le_rfl)

theorem Inv.default (h : s.Inv) : (s.construct .user .null).Inv := by
  refine ⟨?_, fun o => construct_objects h.unborn _ _, h.numbered, h.wokenLive⟩
  rw [custody_construct]
  exact h.sound.give_none h.owned_fresh

theorem Inv.moveInit (h : s.Inv) (hx : s.objects src = some x) (storage : Storage) :
    (s.moveInit storage src x.waker).Inv := by
  refine ⟨?_, fun o ho => write_objects (construct_objects h.unborn _ _ ho) _ _, h.numbered,
    h.wokenLive⟩
  rw [custody_moveInit hx]
  exact h.sound.move h.owned_fresh

theorem Inv.assign {y : WakerObject} (h : s.Inv) (hx : s.objects dst = some x)
    (hy : s.objects src = some y) : (s.assign dst src x.waker y.waker).Inv := by
  have hissued : (s.assign dst src x.waker y.waker).issued = s.issued := by
    simp [issued, Wakers.assign, write]
  refine ⟨?_, fun o ho => ?_, ?_, wokenLive_free h.wokenLive _⟩
  · rw [custody_assign hx hy, hissued]
    exact (h.sound.release dst).move (by simp [Custody.release])
  · refine write_objects (write_objects ?_ _ _) _ _
    rw [free_objects]
    exact h.unborn o (by simpa [Wakers.assign, write] using ho)
  · simpa [Wakers.assign, write] using h.numbered

theorem Inv.destroy (h : s.Inv) (o : Nat) : (s.destroy o).Inv := by
  refine ⟨?_, fun o' ho' => ?_, ?_, wokenLive_destroy h.wokenLive _⟩
  · rw [custody_destroy, issued, destroy_handed]
    exact h.sound.release o
  · rw [destroy_fresh] at ho'
    exact destroy_objects (h.unborn o' ho') _
  · rw [destroy_handed]
    exact h.numbered

theorem Inv.withCalls (h : s.Inv) (calls : Nat → Option OnMsgPc) : { s with calls := calls }.Inv :=
  ⟨h.sound, h.unborn, h.numbered, h.wokenLive⟩

theorem Inv.endCall (h : s.Inv) (tmp : Nat) : (s.endCall tmp).Inv :=
  (h.destroy tmp).withCalls _

/-- A waker handed over is a new one: no call before had its number. -/
theorem Inv.onMsg (h : s.Inv) (data vtable : Option Nat) (sync : Bool) :
    (s.onMsg data vtable sync).Inv := by
  set w : CWaker := ⟨data, vtable, s.handed.length⟩ with hw
  have hcustody : (s.onMsg data vtable sync).custody =
      s.custody.give s.fresh ((some w).filter CWaker.nonNull) := custody_construct s _ w
  have hmem : ∀ v, v ∈ (s.onMsg data vtable sync).issued ↔
      v ∈ s.issued ∨ v = w ∧ w.nonNull = true := by
    intro v
    change v ∈ s.handed ++ [w] ∧ _ ↔ _
    rw [List.mem_append, List.mem_singleton, or_and_right]
    refine or_congr_right (and_congr_right ?_)
    rintro rfl
    rfl
  refine ⟨?_, fun o => construct_objects h.unborn _ _, ?_, h.wokenLive⟩
  · rw [hcustody]
    cases hn : w.nonNull with
    | true =>
      have hnew : w ∉ s.issued := fun hmem => lt_irrefl _ (h.numbered w hmem.1)
      have hissued : (s.onMsg data vtable sync).issued = insert w s.issued := by
        ext v
        rw [hmem, Set.mem_insert_iff, or_comm, and_iff_left hn]
      rw [hissued, Option.filter_some_pos hn]
      exact h.sound.issue h.owned_fresh hnew
    | false =>
      have hissued : (s.onMsg data vtable sync).issued = s.issued := by
        ext v
        simp [hmem, hn]
      rw [hissued, Option.filter_some_neg hn]
      exact h.sound.give_none h.owned_fresh
  · intro v hv
    have hlen : (s.onMsg data vtable sync).handed.length = s.handed.length + 1 :=
      List.length_append
    rw [hlen]
    rcases List.mem_append.mp hv with hv | hv
    · exact (h.numbered v hv).trans (Nat.lt_succ_self _)
    · rw [List.mem_singleton.mp hv]
      exact Nat.lt_succ_self _

/-- What is woken is owned, so it was not freed. -/
theorem Inv.wake (h : s.Inv) (hx : s.objects o = some x) (hn : x.waker.nonNull = true) :
    ({ s with log := s.log ++ [.woken x.waker] } : Wakers).Inv := by
  have hcustody : ({ s with log := s.log ++ [.woken x.waker] } : Wakers).custody = s.custody :=
    congrArg (Custody.mk s.owned) (by simp [freedBy])
  have hlive : .freed x.waker ∉ s.log := fun hmem =>
    (h.sound.kept o _ (owned_eq_some.mpr ⟨x, hx, rfl, hn⟩)).2 (mem_released.mpr hmem)
  refine ⟨?_, h.unborn, h.numbered, Log.forall_concat h.wokenLive ?_⟩
  · rw [hcustody]
    exact h.sound
  · intro w hw
    obtain rfl := WakerEvent.woken.inj hw
    exact hlive

theorem Inv.step {a : WakerAct} (h : s.Inv) (hs : s.step a = some s') : s'.Inv := by
  cases step_cases hs with
  | onMsg data vtable sync => exact h.onMsg data vtable sync
  | onMessageReturned _ hx => exact (h.moveInit hx _).withCalls _
  | endCall => exact h.endCall _
  | dropWaker => exact (h.destroy _).endCall _
  | default => exact h.default
  | moveConstruct hx => exact h.moveInit hx .user
  | moveAssign hx hy => exact h.assign hx hy
  | wake hx hn => exact h.wake hx hn
  | wakeNull => exact h
  | destroy o => exact h.destroy o

theorem inv_init : wakers.init.Inv := by
  have hissued : wakers.init.issued = ∅ := by
    ext w
    simp [issued, wakers]
  refine ⟨?_, fun _ _ => rfl, by simp [wakers], ?_⟩
  · rw [hissued]
    exact Custody.sound_empty
  · intro pre e post heq
    simp [wakers] at heq

theorem inv_of_reach (hr : wakers.Reach s) : s.Inv :=
  hr.invariant inv_init fun _ _ _ h hs => h.step hs

/-! ### The objects of a call -/

def storageAt (s : Wakers) (o : Nat) : Option Storage := (s.objects o).map WakerObject.storage

theorem storageAt_update (s : Wakers) (o : Nat) (x : Option WakerObject) :
    ({ s with objects := Function.update s.objects o x } : Wakers).storageAt =
      Function.update s.storageAt o (x.map WakerObject.storage) :=
  Function.comp_update (Option.map WakerObject.storage) s.objects o x

theorem storageAt_construct (s : Wakers) (storage : Storage) (w : CWaker) :
    (s.construct storage w).storageAt = Function.update s.storageAt s.fresh (some storage) :=
  storageAt_update s s.fresh (some ⟨storage, w⟩)

theorem storageAt_write (s : Wakers) (o : Nat) (w : CWaker) :
    (s.write o w).storageAt = s.storageAt := by
  rw [write, storageAt_update, Option.map_map]
  exact Function.update_eq_self o s.storageAt

theorem storageAt_free (s : Wakers) (w : CWaker) : (s.free w).storageAt = s.storageAt := by
  funext o
  rw [storageAt, free_objects, storageAt]

theorem storageAt_destroy (s : Wakers) (o : Nat) :
    (s.destroy o).storageAt = Function.update s.storageAt o none := by
  cases h : s.objects o with
  | none =>
    have hnone : s.storageAt o = none := by rw [storageAt, h]; rfl
    rw [destroy, h, ← hnone, Function.update_eq_self]
  | some x =>
    rw [destroy, h, ← storageAt_free s x.waker]
    exact storageAt_update (s.free x.waker) o none

/-- Every object that is not the user's is the temporary or the `drop_waker` of a call in progress. -/
structure Temporaries (s : Wakers) : Prop where
  inCall : ∀ o storage, s.storageAt o = some storage → storage ≠ .user →
    ∃ tmp pc, s.calls tmp = some pc ∧ (o = tmp ∨ pc = .dropWaker o)
  born : ∀ tmp pc, s.calls tmp = some pc → tmp < s.fresh

/-- A step that makes objects of the user only, or destroys some. -/
theorem Temporaries.of_user (h : s.Temporaries) (hcalls : s'.calls = s.calls)
    (hfresh : s.fresh ≤ s'.fresh) (hstorage : ∀ o storage, s'.storageAt o = some storage →
      storage ≠ .user → s.storageAt o = some storage) : s'.Temporaries := by
  refine ⟨fun o storage ho hne => ?_, fun tmp pc hpc => ?_⟩
  · rw [hcalls]
    exact h.inCall o storage (hstorage o storage ho hne) hne
  · rw [hcalls] at hpc
    exact (h.born tmp pc hpc).trans_le hfresh

theorem Temporaries.construct_user (h : s.Temporaries) (w : CWaker) :
    (s.construct .user w).Temporaries := by
  refine h.of_user rfl (Nat.le_succ _) fun o storage ho hne => ?_
  rw [storageAt_construct] at ho
  rcases eq_or_ne o s.fresh with rfl | hof
  · rw [Function.update_self] at ho
    exact absurd (Option.some.inj ho).symm hne
  · rwa [Function.update_of_ne hof] at ho

theorem Temporaries.write (h : s.Temporaries) (o : Nat) (w : CWaker) : (s.write o w).Temporaries :=
  h.of_user rfl le_rfl fun o' storage ho' _ => by rwa [storageAt_write] at ho'

theorem Temporaries.free (h : s.Temporaries) (w : CWaker) : (s.free w).Temporaries := by
  exact h.of_user (free_calls s w) (free_fresh s w).ge fun o' storage ho' _ => by
    rwa [storageAt_free] at ho'

theorem Temporaries.destroy (h : s.Temporaries) (o : Nat) : (s.destroy o).Temporaries := by
  refine h.of_user (destroy_calls s o) (destroy_fresh s o).ge fun o' storage ho' _ => ?_
  rw [storageAt_destroy] at ho'
  rcases eq_or_ne o' o with rfl | hne
  · simp at ho'
  · rwa [Function.update_of_ne hne] at ho'

/-- The end of a call whose `drop_waker` is gone. -/
theorem Temporaries.endCall {pc : OnMsgPc} (h : s.Temporaries) (hpc : s.calls tmp = some pc)
    (hdrop : ∀ addr, pc = .dropWaker addr → s.storageAt addr = none) :
    (s.endCall tmp).Temporaries := by
  have hcalls : ∀ tmp', tmp' ≠ tmp → (s.endCall tmp).calls tmp' = s.calls tmp' :=
    fun tmp' hne => Function.update_of_ne hne _ _
  have hself : (s.endCall tmp).calls tmp = none := Function.update_self _ _ _
  refine ⟨fun o storage ho hne => ?_, fun tmp' pc' hpc' => ?_⟩
  · replace ho : (s.destroy tmp).storageAt o = some storage := ho
    rw [storageAt_destroy] at ho
    have hot : o ≠ tmp := by
      rintro rfl
      simp at ho
    rw [Function.update_of_ne hot] at ho
    obtain ⟨tmp', pc', hpc', hat⟩ := h.inCall o storage ho hne
    rcases eq_or_ne tmp' tmp with rfl | htmp
    · rw [hpc] at hpc'
      obtain rfl := Option.some.inj hpc'
      rw [hdrop o (hat.resolve_left hot)] at ho
      cases ho
    · exact ⟨tmp', pc', (hcalls tmp' htmp).trans hpc', hat⟩
  · have htmp : tmp' ≠ tmp := by
      rintro rfl
      rw [hself] at hpc'; cases hpc'
    rw [hcalls tmp' htmp] at hpc'
    exact (h.born tmp' pc' hpc').trans_eq (destroy_fresh s tmp).symm

theorem Temporaries.onMsg (h : s.Temporaries) (data vtable : Option Nat) (sync : Bool) :
    (s.onMsg data vtable sync).Temporaries := by
  set pc : OnMsgPc := if sync then .onMessage else .onMessageAsync with hdef
  have hcalls : (s.onMsg data vtable sync).calls = Function.update s.calls s.fresh (some pc) := rfl
  refine ⟨fun o storage ho hne => ?_, fun tmp pc' hpc => ?_⟩
  · rw [hcalls]
    rcases eq_or_ne o s.fresh with rfl | hof
    · exact ⟨s.fresh, pc, Function.update_self _ _ _, .inl rfl⟩
    · have ho' : (s.construct (if sync then .internal else .argument)
          ⟨data, vtable, s.handed.length⟩).storageAt o = some storage := ho
      rw [storageAt_construct, Function.update_of_ne hof] at ho'
      obtain ⟨tmp, pc', hpc, hat⟩ := h.inCall o storage ho' hne
      have htmp : tmp ≠ s.fresh := (h.born tmp pc' hpc).ne
      exact ⟨tmp, pc', by rwa [Function.update_of_ne htmp], hat⟩
  · change tmp < s.fresh + 1
    rw [hcalls] at hpc
    rcases eq_or_ne tmp s.fresh with rfl | htmp
    · exact Nat.lt_succ_self _
    · rw [Function.update_of_ne htmp] at hpc
      exact (h.born tmp pc' hpc).trans (Nat.lt_succ_self _)

theorem Temporaries.onMessageReturned (h : s.Temporaries) (hpc : s.calls tmp = some .onMessage)
    (w : CWaker) : { s.moveInit .internal tmp w with
      calls := Function.update s.calls tmp (some (.dropWaker s.fresh)) }.Temporaries := by
  refine ⟨fun o storage ho hne => ?_, fun tmp' pc' hpc' => ?_⟩
  · replace ho : (s.moveInit .internal tmp w).storageAt o = some storage := ho
    rw [moveInit, storageAt_write, storageAt_construct] at ho
    rcases eq_or_ne o s.fresh with rfl | hof
    · exact ⟨tmp, .dropWaker s.fresh, Function.update_self _ _ _, .inr rfl⟩
    · rw [Function.update_of_ne hof] at ho
      obtain ⟨tmp', pc', hpc', hat⟩ := h.inCall o storage ho hne
      rcases eq_or_ne tmp' tmp with rfl | htmp
      · rw [hpc] at hpc'
        obtain rfl := Option.some.inj hpc'
        have hot : o = tmp' := hat.resolve_right fun heq => by cases heq
        exact ⟨tmp', .dropWaker s.fresh, Function.update_self _ _ _, .inl hot⟩
      · exact ⟨tmp', pc', (Function.update_of_ne htmp _ _).trans hpc', hat⟩
  · change tmp' < s.fresh + 1
    rcases eq_or_ne tmp' tmp with rfl | htmp
    · exact (h.born tmp' _ hpc).trans (Nat.lt_succ_self _)
    · replace hpc' : s.calls tmp' = some pc' := (Function.update_of_ne htmp _ _).symm.trans hpc'
      exact (h.born tmp' pc' hpc').trans (Nat.lt_succ_self _)

theorem Temporaries.step {a : WakerAct} (h : s.Temporaries) (hs : s.step a = some s') :
    s'.Temporaries := by
  cases step_cases hs with
  | onMsg data vtable sync => exact h.onMsg data vtable sync
  | onMessageReturned hpc => exact h.onMessageReturned hpc _
  | endCall hpc hdrop => exact h.endCall hpc fun addr heq => absurd heq (hdrop addr)
  | @dropWaker tmp addr hpc =>
    refine (h.destroy addr).endCall ((congrFun (destroy_calls s addr) tmp).trans hpc) ?_
    intro addr' heq
    obtain rfl := OnMsgPc.dropWaker.inj heq
    rw [storageAt_destroy, Function.update_self]
  | default => exact h.construct_user _
  | @moveConstruct src x => exact (h.construct_user x.waker).write src _
  | @moveAssign dst src x y => exact ((h.free x.waker).write dst y.waker).write src _
  | wake => exact h.of_user rfl le_rfl fun _ _ ho _ => ho
  | wakeNull => exact h
  | destroy o => exact h.destroy o

/-- With no call in progress every object is the user's: a call leaves none of its own, returning or
    unwinding. -/
theorem user_of_no_calls (hr : wakers.Reach s) (hcalls : ∀ tmp, s.calls tmp = none)
    (hx : s.objects o = some x) : x.storage = .user := by
  have h : s.Temporaries := hr.invariant ⟨by simp [wakers, storageAt], by simp [wakers]⟩
    fun _ _ _ h hs => h.step hs
  by_contra hne
  obtain ⟨tmp, pc, hpc, -⟩ := h.inCall o x.storage (by rw [storageAt, hx, Option.map_some]) hne
  rw [hcalls] at hpc
  cases hpc

/-! ### Released once -/

/-- Each waker that must be freed is owned by one object or was freed once, and is not woken after
    that. It was freed when all objects are gone; with no call in progress, when those of the user
    are. -/
theorem wakers_freed_once (hr : wakers.Reach s) (hw : w ∈ s.handed) (hn : w.nonNull = true) :
    (∀ o o', s.owned o = some w → s.owned o' = some w → o = o') ∧
      ((∃ o, s.owned o = some w) ↔ .freed w ∉ s.log) ∧ s.log.count (.freed w) ≤ 1 ∧
      ((∀ o, s.objects o = none) → s.log.count (.freed w) = 1) ∧
      ((∀ tmp, s.calls tmp = none) → (∀ o x, s.objects o = some x → x.storage ≠ .user) →
        s.log.count (.freed w) = 1) ∧
      ∀ pre post, s.log = pre ++ .woken w :: post → .freed w ∉ pre := by
  have h := inv_of_reach hr
  have hfreed : (∀ o, s.objects o = none) → s.log.count (.freed w) = 1 := by
    intro hgone
    rw [← count_released]
    exact h.sound.count_eq_one (fun o => owned_of_none (hgone o)) ⟨hw, hn⟩
  refine ⟨fun o o' => h.sound.unique o o' w, ?_, ?_, hfreed, fun hcalls huser => ?_,
    fun pre post heq => ?_⟩
  · rw [← mem_released]
    constructor
    · rintro ⟨o, ho⟩
      exact (h.sound.kept o w ho).2
    · intro hrel
      exact (h.sound.accounted w ⟨hw, hn⟩).resolve_right hrel
  · rw [← count_released]
    exact List.nodup_iff_count_le_one.mp h.sound.nodup w
  · refine hfreed fun o => ?_
    rw [Option.eq_none_iff_forall_ne_some]
    exact fun x hx => huser o x hx (user_of_no_calls hr hcalls hx)
  · exact h.wokenLive pre _ post heq w rfl

/-- The waker of one call goes from the temporary to an object of the user, is woken there, goes on by
    an assignment to another object and is freed when that one is assigned to itself. Two calls of a
    `MsgReceiver` free theirs, the second by its exception. -/
def handOvers : List WakerAct :=
  [.onMsg (some 1) (some 2) false, .moveConstruct 0, .returns 0, .wake 1, .default, .moveAssign 2 1,
    .moveAssign 2 2, .destroy 1, .destroy 2, .onMsg (some 1) (some 2) true, .onMessageReturned 3,
    .returns 3, .onMsg (some 1) (some 2) true, .throws 5]

theorem wakers_freed_once_handOvers : ∃ s, wakers.Reach s ∧ s.handed.length = 3 ∧
    ∀ w ∈ s.handed, s.log.count (.freed w) = 1 := by
  obtain ⟨s, hr, hs⟩ := wakers.reach_of_run handOvers
    (fun s => s.handed.length == 3 && s.fresh == 6 && s.handed.all CWaker.nonNull &&
      (List.range 6).all fun o => (s.objects o).isNone) (by decide)
  simp only [Bool.and_eq_true, beq_iff_eq, List.all_eq_true, List.mem_range, Option.isNone_iff_eq_none]
    at hs
  obtain ⟨⟨⟨hlen, hfresh⟩, hn⟩, hgone⟩ := hs
  refine ⟨s, hr, hlen, fun w hw => ?_⟩
  refine (wakers_freed_once hr hw (hn w hw)).2.2.2.1 fun o => ?_
  rcases Nat.lt_or_ge o 6 with ho | ho
  · exact hgone o ho
  · exact (inv_of_reach hr).unborn o (by omega)

end Wakers

end SocketManager.Api
