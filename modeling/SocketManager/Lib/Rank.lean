import SocketManager.Lib.Machine

/-! Runs that end. A rank is a number that every step meeting a guard makes smaller, so a run of such
    steps from a state is no longer than the rank of that state. A run that can go no further ends in
    a stuck state, and from every state there is such a run; what is true of the stuck states is then
    what every run comes to.

    Ranked steps are a case of the potential method: a step may also bring something, and what the
    steps of a run gain is no more than the rank at its start and all that its steps bring.

    The guard says which steps are counted: the steps of one side of a system, or those in which the
    environment does not fail. Nothing is assumed about the order in which they are taken. -/

namespace Machine
variable {σ ι : Type*} {m : Machine σ ι} {ok : σ → ι → Prop} {I : σ → Prop} {rank : σ → Nat} {s t : σ}

/-- Each step that meets `ok` keeps `I` and does not make the rank larger; the steps that count make it
    smaller. -/
structure Counted (m : Machine σ ι) (ok : σ → ι → Prop) (I : σ → Prop) (counts : ι → Bool)
    (rank : σ → Nat) : Prop where
  keeps : ∀ s a t, I s → ok s a → m.step s a = some t → I t
  le : ∀ s a t, I s → ok s a → m.step s a = some t → rank t ≤ rank s
  lt : ∀ s a t, I s → ok s a → counts a = true → m.step s a = some t → rank t < rank s

/-- Each step that meets `ok` keeps `I`, and the rank with what the step brings pays for its gain. -/
structure Potential (m : Machine σ ι) (ok : σ → ι → Prop) (I : σ → Prop) (gain cost : ι → Nat)
    (rank : σ → Nat) : Prop where
  keeps : ∀ s a t, I s → ok s a → m.step s a = some t → I t
  pays : ∀ s a t, I s → ok s a → m.step s a = some t → rank t + gain a ≤ rank s + cost a

/-- Each step that meets `ok` keeps `I` and makes the rank smaller. -/
structure Ranked (m : Machine σ ι) (ok : σ → ι → Prop) (I : σ → Prop) (rank : σ → Nat) : Prop where
  keeps : ∀ s a t, I s → ok s a → m.step s a = some t → I t
  lt : ∀ s a t, I s → ok s a → m.step s a = some t → rank t < rank s

/-- No step that meets `ok` is enabled. -/
def Stuck (m : Machine σ ι) (ok : σ → ι → Prop) (s : σ) : Prop := ∀ a, ok s a → m.step s a = none

/-- A guard on the actions alone is met along a run of such actions. -/
theorem along_of_forall {p : ι → Prop} {as : List ι} (h : ∀ a ∈ as, p a) :
    ∀ s : σ, m.Along (fun _ a => p a) s as := by
  induction as with
  | nil => exact fun _ => trivial
  | cons a as ih =>
    exact fun s t _ => ⟨h a List.mem_cons_self, ih (fun b hb => h b (List.mem_cons_of_mem _ hb)) t⟩

/-- A run to its end takes all of its actions. -/
theorem forall_of_along {p : ι → Prop} {as : List ι} : ∀ {s t : σ}, m.Along (fun _ a => p a) s as →
    m.run s as = some t → ∀ a ∈ as, p a := by
  induction as with
  | nil => exact fun _ _ a ha => absurd ha List.not_mem_nil
  | cons b as ih =>
    intro s t hal hrun a ha
    obtain ⟨u, hu, hrun⟩ := Option.bind_eq_some_iff.mp hrun
    obtain ⟨hok, hal⟩ := hal u hu
    rcases List.mem_cons.mp ha with rfl | hmem
    · exact hok
    · exact ih hal hrun a hmem

/-- A run whose steps meet a guard is a guarded path. -/
theorem path_of_along {as : List ι} : ∀ {s t : σ}, m.Along ok s as → m.run s as = some t →
    m.Path ok s t := by
  induction as with
  | nil =>
    intro s t _ hrun
    obtain rfl := Option.some.inj hrun; exact .refl
  | cons a as ih =>
    intro s t hal hrun
    obtain ⟨u, hu, hrun⟩ := Option.bind_eq_some_iff.mp hrun
    obtain ⟨hok, hal⟩ := hal u hu
    exact (Path.single hok hu).trans (ih hal hrun)

/-- What `f` gives for the steps of a run, added up. -/
def total (f : ι → Nat) : List ι → Nat
  | [] => 0
  | a :: as => f a + total f as

theorem total_const (n : Nat) (as : List ι) : total (fun _ => n) as = n * as.length := by
  induction as with
  | nil => rfl
  | cons a as ih => rw [total, ih, List.length_cons, Nat.mul_succ, Nat.add_comm]

theorem total_toNat (n : Nat) (counts : ι → Bool) (as : List ι) :
    total (fun a => n * (counts a).toNat) as = n * as.countP counts := by
  induction as with
  | nil => rfl
  | cons a as ih =>
    rw [total, ih, List.countP_cons, Nat.mul_add, Nat.add_comm]
    cases counts a <;> rfl

/-- What the steps of a run gain is paid for by its rank and by what they bring. -/
theorem Potential.total_le {gain cost : ι → Nat} (h : m.Potential ok I gain cost rank) {as : List ι} :
    ∀ {s t : σ}, I s → m.Along ok s as → m.run s as = some t →
      I t ∧ rank t + total gain as ≤ rank s + total cost as := by
  induction as with
  | nil =>
    intro s t hI _ hrun
    obtain rfl := Option.some.inj hrun
    exact ⟨hI, by simp [total]⟩
  | cons a as ih =>
    intro s t hI hal hrun
    obtain ⟨u, hu, hrun⟩ := Option.bind_eq_some_iff.mp hrun
    obtain ⟨hok, hal⟩ := hal u hu
    obtain ⟨ht, hle⟩ := ih (h.keeps s a u hI hok hu) hal hrun
    have hstep := h.pays s a u hI hok hu
    simp only [total]
    exact ⟨ht, by omega⟩

/-- The steps of a run that count are paid for by its rank. -/
theorem Counted.countP_le {counts : ι → Bool} (h : m.Counted ok I counts rank) {as : List ι}
    {s t : σ} (hI : I s) (hal : m.Along ok s as) (hrun : m.run s as = some t) :
    I t ∧ as.countP counts + rank t ≤ rank s := by
  have hp : m.Potential ok I (fun a => 1 * (counts a).toNat) (fun _ => 0) rank := by
    refine ⟨h.keeps, fun s a t hI hok hs => ?_⟩
    cases hc : counts a with
    | true => exact h.lt s a t hI hok hc hs
    | false => exact h.le s a t hI hok hs
  obtain ⟨ht, hle⟩ := hp.total_le hI hal hrun
  refine ⟨ht, ?_⟩
  rw [total_toNat, total_const] at hle
  omega

namespace Ranked

theorem counted (h : m.Ranked ok I rank) : m.Counted ok I (fun _ => true) rank :=
  ⟨h.keeps, fun s a t hI hok hs => (h.lt s a t hI hok hs).le, fun s a t hI hok _ => h.lt s a t hI hok⟩

/-- All the steps of a run are paid for by its rank. -/
theorem length_le (h : m.Ranked ok I rank) {as : List ι} {s t : σ} (hI : I s)
    (hal : m.Along ok s as) (hrun : m.run s as = some t) : I t ∧ as.length + rank t ≤ rank s := by
  have hle := h.counted.countP_le hI hal hrun
  rwa [List.countP_true] at hle

/-- Fewer steps are ranked the same. -/
theorem mono (h : m.Ranked ok I rank) {ok' : σ → ι → Prop} (himp : ∀ s a, ok' s a → ok s a) :
    m.Ranked ok' I rank :=
  ⟨fun s a t hI hok => h.keeps s a t hI (himp s a hok), fun s a t hI hok => h.lt s a t hI (himp s a hok)⟩

/-- From any state some run of ranked steps comes to where none is left. -/
theorem exists_stuck (h : m.Ranked ok I rank) (hI : I s) :
    ∃ as t, m.Along ok s as ∧ m.run s as = some t ∧ m.Stuck ok t := by
  induction hn : rank s using Nat.strong_induction_on generalizing s with
  | _ n ih =>
    by_cases hst : m.Stuck ok s
    · exact ⟨[], s, trivial, rfl, hst⟩
    · obtain ⟨a, ha⟩ := not_forall.mp hst
      obtain ⟨hok, hs⟩ := Classical.not_imp.mp ha
      obtain ⟨u, hu⟩ := Option.ne_none_iff_exists'.mp hs
      obtain ⟨as, t, hal, hrun, ht⟩ := ih (rank u) (hn ▸ h.lt s a u hI hok hu)
        (h.keeps s a u hI hok hu) rfl
      refine ⟨a :: as, t, fun v hv => ?_, ?_, ht⟩
      · obtain rfl := Option.some.inj (hu.symm.trans hv)
        exact ⟨hok, hal⟩
      · rw [run, hu]
        exact hrun

end Ranked

end Machine
