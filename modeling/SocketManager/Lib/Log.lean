import Mathlib.Data.List.Infix
import Mathlib.Tactic.Common

/-! Append-only logs. A statement about every entry of a log and what was logged before it is a
    statement about every split `pre ++ x :: post`; these lemmas carry it over one more entry. -/

namespace Log
variable {α : Type*} {log pre post : List α} {x y : α}

/-- A split of a log with one more entry is at the new entry or is a split of the old log. -/
theorem concat_split (h : log ++ [x] = pre ++ y :: post) :
    (pre = log ∧ y = x) ∨ ∃ post', log = pre ++ y :: post' := by
  rcases List.eq_nil_or_concat post with rfl | ⟨post, last, rfl⟩
  · obtain ⟨rfl, hc⟩ := List.append_inj' h rfl
    exact .inl ⟨rfl, by simpa using hc.symm⟩
  · rw [List.concat_eq_append, ← List.cons_append, ← List.append_assoc] at h
    exact .inr ⟨post, (List.append_inj' h rfl).1⟩

/-- A property of each entry given the entries before it. -/
theorem forall_concat {P : List α → α → Prop}
    (h : ∀ pre y post, log = pre ++ y :: post → P pre y) (hx : P log x) :
    ∀ pre y post, log ++ [x] = pre ++ y :: post → P pre y := by
  intro pre y post heq
  rcases concat_split heq with ⟨rfl, rfl⟩ | ⟨post', hlog⟩
  · exact hx
  · exact h pre y post' hlog

end Log
