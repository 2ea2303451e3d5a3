import Mathlib.Data.List.Infix
import Mathlib.Logic.Function.Basic
import Mathlib.Order.Basic
import Mathlib.Tactic.Common
import Mathlib.Tactic.Simps.Basic

/-! Machines with a partial step function. A machine is an initial state and a function that gives
    the successor of a state under an action, or `none` when the action is not enabled there. All
    the nondeterminism of a system (who moves next, what the environment answers) is in the action,
    so a finite list of actions determines the run and can be evaluated.

    `Path` is reachability under a guard on the steps taken, which covers both plain reachability
    (`Reach`, the guard that is always true) and "every run whose steps all meet a condition". An
    invariant is proved once per step and carried along a path by `Path.invariant`. `Along` is a
    condition on the steps of one given run. -/

/-- An initial state and a partial step function. -/
structure Machine (σ ι : Type*) where
  init : σ
  step : σ → ι → Option σ

namespace Machine
variable {σ ι : Type*} (m : Machine σ ι)

/-- Run a list of actions from a state; `none` as soon as one of them is not enabled. -/
def run : σ → List ι → Option σ
  | s, [] => some s
  | s, a :: as => (m.step s a).bind fun t => run t as

/-- `m.Path ok s t`: enabled actions lead from `s` to `t`, each of them meeting `ok` in the state it
    is taken from. -/
inductive Path (ok : σ → ι → Prop) (s : σ) : σ → Prop where
  | refl : Path ok s s
  | tail {t u : σ} {a : ι} : Path ok s t → ok t a → m.step t a = some u → Path ok s u

/-- Reachable from the initial state by any enabled actions. -/
def Reach (s : σ) : Prop := m.Path (fun _ _ => True) m.init s

variable {m}

/-- A property of the start that every guarded step preserves holds at the end of a path. -/
theorem Path.invariant {ok : σ → ι → Prop} {I : σ → Prop} {s t : σ} (hp : m.Path ok s t)
    (h0 : I s) (hstep : ∀ t a u, ok t a → I t → m.step t a = some u → I u) : I t := by
  induction hp with
  | refl => exact h0
  | tail _ hok hs ih => exact hstep _ _ _ hok ih hs

theorem Path.single {ok : σ → ι → Prop} {s t : σ} {a : ι} (hok : ok s a) (hs : m.step s a = some t) :
    m.Path ok s t :=
  .tail .refl hok hs

theorem Path.trans {ok : σ → ι → Prop} {s t u : σ} (h₁ : m.Path ok s t) (h₂ : m.Path ok t u) :
    m.Path ok s u := by
  induction h₂ with
  | refl => exact h₁
  | tail _ hok hs ih => exact ih.tail hok hs

/-- Weakening the guard keeps the path. -/
theorem Path.mono {ok ok' : σ → ι → Prop} {s t : σ} (himp : ∀ u a, ok u a → ok' u a)
    (hp : m.Path ok s t) : m.Path ok' s t := by
  induction hp with
  | refl => exact .refl
  | tail _ hok hs ih => exact ih.tail (himp _ _ hok) hs

/-- Rule of invariants: true initially and preserved by every step, so true of every reachable
    state. -/
theorem Reach.invariant {I : σ → Prop} {s : σ} (hr : m.Reach s) (h0 : I m.init)
    (hstep : ∀ t a u, I t → m.step t a = some u → I u) : I s :=
  Path.invariant hr h0 fun t a u _ => hstep t a u

/-- The same along a guarded run, where each step may also use what holds of every reachable state. -/
theorem Path.invariant_of_reach {ok : σ → ι → Prop} {I : σ → Prop} {s : σ}
    (hp : m.Path ok m.init s) (h0 : I m.init)
    (hstep : ∀ t a u, m.Reach t → ok t a → I t → m.step t a = some u → I u) : I s := by
  have key : m.Reach s ∧ I s := by
    refine hp.invariant (I := fun t => m.Reach t ∧ I t) ⟨.refl, h0⟩ ?_
    rintro t a u hok ⟨hr, hi⟩ hs
    exact ⟨hr.tail trivial hs, hstep t a u hr hok hi hs⟩
  exact key.2

/-- Rule of simulation: a view of the state under which each guarded step of one machine is a guarded
    path of another carries paths over. -/
theorem Path.project {σ' ι' : Type*} {m' : Machine σ' ι'} {ok : σ → ι → Prop} {ok' : σ' → ι' → Prop}
    {f : σ → σ'} {s t : σ} (hp : m.Path ok s t)
    (hstep : ∀ t a u, ok t a → m.step t a = some u → m'.Path ok' (f t) (f u)) :
    m'.Path ok' (f s) (f t) := by
  induction hp with
  | refl => exact .refl
  | tail _ hok hs ih => exact ih.trans (hstep _ _ _ hok hs)

/-! ### What holds along a run -/

/-- Every step of the run of `as` from a state meets `ok`, up to where the run stops. -/
def Along (m : Machine σ ι) (ok : σ → ι → Prop) : σ → List ι → Prop
  | _, [] => True
  | s, a :: as => ∀ t, m.step s a = some t → ok s a ∧ m.Along ok t as

theorem along_true (m : Machine σ ι) (as : List ι) : ∀ s : σ, m.Along (fun _ _ => True) s as := by
  induction as with
  | nil => exact fun _ => trivial
  | cons a as ih => exact fun s t _ => ⟨trivial, ih t⟩

instance decidableAlong (ok : σ → ι → Prop) [∀ s a, Decidable (ok s a)] :
    ∀ (as : List ι) (s : σ), Decidable (m.Along ok s as)
  | [], _ => .isTrue trivial
  | a :: as, s =>
    match h : m.step s a with
    | none => .isTrue fun t ht => by rw [h] at ht; cases ht
    | some t =>
      have := decidableAlong ok as t
      decidable_of_iff (ok s a ∧ m.Along ok t as)
        ⟨fun hok u hu => by rw [h] at hu; cases hu; exact hok, fun hall => hall t h⟩

/-- Two conditions that agree on the steps of a run are met along the same runs. An invariant of the
    run may be used to see that they agree. -/
theorem Along.congr {g p q : σ → ι → Prop} {I : σ → Prop} {as : List ι}
    (hI : ∀ s a t, g s a → I s → m.step s a = some t → I t)
    (hpq : ∀ s a t, g s a → I s → m.step s a = some t → (p s a ↔ q s a)) :
    ∀ {s : σ}, m.Along g s as → I s → (m.Along p s as ↔ m.Along q s as) := by
  induction as with
  | nil => exact fun _ _ => Iff.rfl
  | cons a as ih =>
    intro s hg h0
    refine forall₂_congr fun t ht => ?_
    obtain ⟨hok, hrest⟩ := hg t ht
    exact and_congr (hpq s a t hok h0 ht) (ih hrest (hI s a t hok h0 ht))

/-- The run of `as` goes on to a state from which the last step does not meet `ok`. -/
theorem not_along {ok : σ → ι → Prop} {a : ι} {as : List ι} : ∀ {s t u : σ}, m.run s as = some t →
    m.step t a = some u → ¬ ok t a → ¬ m.Along ok s (as ++ [a]) := by
  induction as with
  | nil =>
    intro s t u hrun hs hno h
    obtain rfl := Option.some.inj hrun
    exact hno (h u hs).1
  | cons b as ih =>
    intro s t u hrun hs hno h
    obtain ⟨v, hv, hrun⟩ := Option.bind_eq_some_iff.mp hrun
    exact ih hrun hs hno (h v hv).2

/-! ### Evaluated runs -/

/-- The machine whose steps are cut down to those that meet a guard. -/
def guard (m : Machine σ ι) (ok : σ → ι → Prop) [∀ s a, Decidable (ok s a)] : Machine σ ι where
  init := m.init
  step s a := if ok s a then m.step s a else none

theorem path_of_guard {ok ok' : σ → ι → Prop} [∀ s a, Decidable (ok s a)] {s t : σ}
    (hp : (m.guard ok).Path ok' s t) : m.Path ok s t := by
  induction hp with
  | refl => exact .refl
  | tail _ _ hs ih =>
    simp only [guard] at hs
    split at hs
    · rename_i hok
      exact ih.tail hok hs
    · cases hs

theorem path_of_run {as : List ι} : ∀ {s t : σ}, m.run s as = some t →
    m.Path (fun _ _ => True) s t := by
  induction as with
  | nil =>
    intro s t h
    obtain rfl := Option.some.inj h; exact .refl
  | cons a as ih =>
    intro s t h
    obtain ⟨u, hu, hrun⟩ := Option.bind_eq_some_iff.mp h
    exact (Path.single trivial hu).trans (ih hrun)

/-- Some guarded actions lead from a state to one with property `p`. -/
def reaches (m : Machine σ ι) (ok : σ → ι → Prop) [∀ s a, Decidable (ok s a)] (as : List ι)
    (p : σ → Bool) (s : σ) : Bool :=
  ((m.guard ok).run s as).any p

theorem path_of_reaches {ok : σ → ι → Prop} [∀ s a, Decidable (ok s a)] {as : List ι} {p : σ → Bool}
    {s : σ} (h : m.reaches ok as p s = true) : ∃ t, m.Path ok s t ∧ p t = true := by
  obtain ⟨t, hrun, hp⟩ := (Option.any_eq_true _ _).mp h
  exact ⟨t, path_of_guard (path_of_run hrun), hp⟩

/-- A run from the initial state that evaluates to a state with property `p` shows that such a state
    is reachable. -/
theorem reach_of_run (as : List ι) (p : σ → Bool) (h : (m.run m.init as).any p = true) :
    ∃ s, m.Reach s ∧ p s = true := by
  cases hr : m.run m.init as with
  | none => simp [hr] at h
  | some s => exact ⟨s, path_of_run hr, by simpa [hr] using h⟩

/-- The same for a run whose every step meets a guard. -/
theorem path_of_guarded_run (ok : σ → ι → Prop) [∀ s a, Decidable (ok s a)] (as : List ι)
    (p : σ → Bool) (h : ((m.guard ok).run m.init as).any p = true) :
    ∃ s, m.Path ok m.init s ∧ p s = true :=
  path_of_reaches h

end Machine
