import Mathlib.Data.List.Nodup
import Mathlib.Data.Set.Insert
import Mathlib.Logic.Function.Basic
import Mathlib.Tactic.Common

/-! Custody of resources that are to be released once. A holder holds at most one resource; a resource
    is given to a holder when it is issued, moves from holder to holder, and ends on the list of the
    released ones. `Sound` says that this is bookkeeping without mistakes: nothing is held twice, held
    after its release, released twice, or lost.

        issue ──▶ holder ── move ──▶ holder ── release ──▶ released -/

/-- Who holds what, and what was released, in order. -/
structure Custody (ο κ : Type*) where
  holds : ο → Option κ
  released : List κ

namespace Custody
variable {ο κ : Type*} {c : Custody ο κ} {issued : Set κ} {o dst src : ο} {k : κ}

/-- Every issued resource is held by one holder or was released once. -/
structure Sound (issued : Set κ) (c : Custody ο κ) : Prop where
  unique : ∀ o o' k, c.holds o = some k → c.holds o' = some k → o = o'
  kept : ∀ o k, c.holds o = some k → k ∈ issued ∧ k ∉ c.released
  nodup : c.released.Nodup
  known : ∀ k ∈ c.released, k ∈ issued
  accounted : ∀ k ∈ issued, (∃ o, c.holds o = some k) ∨ k ∈ c.released

theorem sound_empty : Sound ∅ (⟨fun _ => none, []⟩ : Custody ο κ) :=
  ⟨by simp, by simp, List.nodup_nil, by simp, by simp⟩

/-- With no holder left everything was released, once. -/
theorem Sound.count_eq_one [DecidableEq κ] (h : c.Sound issued) (hnone : ∀ o, c.holds o = none)
    (hk : k ∈ issued) : c.released.count k = 1 := by
  rcases h.accounted k hk with ⟨o, ho⟩ | hmem
  · rw [hnone o] at ho; cases ho
  · exact List.count_eq_one_of_mem h.nodup hmem

variable [DecidableEq ο]

/-- A holder without a resource is given one, or none. -/
def give (c : Custody ο κ) (o : ο) (k : Option κ) : Custody ο κ :=
  ⟨Function.update c.holds o k, c.released⟩

/-- The resource of a holder is released. -/
def release (c : Custody ο κ) (o : ο) : Custody ο κ :=
  ⟨Function.update c.holds o none, c.released ++ (c.holds o).toList⟩

/-- The resource of `src` goes to `dst`, which may be the same. -/
def move (c : Custody ο κ) (dst src : ο) : Custody ο κ :=
  ⟨Function.update (Function.update c.holds dst (c.holds src)) src none, c.released⟩

/-- Whoever holds something after a holder was given `k` is that holder with `k`, or held it before. -/
theorem holds_of_give {k' : κ} {o' : ο} (h : (c.give o (some k)).holds o' = some k') :
    o' = o ∧ k' = k ∨ c.holds o' = some k' := by
  simp only [give, Function.update_apply] at h
  split at h
  · rename_i heq
    exact .inl ⟨heq, (Option.some.inj h).symm⟩
  · exact .inr h

theorem holds_of_release {o' : ο} (h : (c.release o).holds o' = some k) :
    o' ≠ o ∧ c.holds o' = some k := by
  simp only [release, Function.update_apply] at h
  split at h
  · cases h
  · rename_i hne
    exact ⟨hne, h⟩

theorem mem_release : k ∈ (c.release o).released ↔ k ∈ c.released ∨ c.holds o = some k := by
  simp [release]

/-- A holder that takes over from `src` what it was given in place of its own, also from itself: what
    it releases and what it takes are read before either is written. -/
theorem move_release (c : Custody ο κ) (dst src : ο) : (c.release dst).move dst src =
    ⟨Function.update (Function.update c.holds dst (c.holds src)) src none,
      c.released ++ (c.holds dst).toList⟩ := by
  refine congrArg (Custody.mk · _) ?_
  rcases eq_or_ne src dst with rfl | hne
  · simp [release]
  · simp [release, Function.update_of_ne hne]

/-- Whoever holds something after a move is not `src`, and held it before or had it from `src`. -/
theorem holds_of_move (h : (c.move dst src).holds o = some k) :
    o ≠ src ∧ (o = dst ∧ c.holds src = some k ∨ c.holds o = some k) := by
  simp only [move, Function.update_apply] at h
  split at h
  · cases h
  · rename_i hne
    refine ⟨hne, ?_⟩
    split at h
    · rename_i heq
      exact .inl ⟨heq, h⟩
    · exact .inr h

theorem Sound.give_none (h : c.Sound issued) (ho : c.holds o = none) :
    (c.give o none).Sound issued := by
  have hsame : c.give o none = c := by rw [give, ← ho, Function.update_eq_self]
  rwa [hsame]

/-- A new resource is issued to a holder that has none. -/
theorem Sound.issue (h : c.Sound issued) (ho : c.holds o = none) (hk : k ∉ issued) :
    (c.give o (some k)).Sound (insert k issued) := by
  have hnew : ∀ {o'}, c.holds o' ≠ some k := fun hh => hk (h.kept _ k hh).1
  refine ⟨?_, ?_, h.nodup, fun k' hk' => .inr (h.known k' hk'), ?_⟩
  · intro o₁ o₂ k' h₁ h₂
    rcases holds_of_give h₁ with ⟨rfl, rfl⟩ | h₁'
    · rcases holds_of_give h₂ with ⟨rfl, -⟩ | h₂'
      · rfl
      · exact absurd h₂' hnew
    · rcases holds_of_give h₂ with ⟨-, rfl⟩ | h₂'
      · exact absurd h₁' hnew
      · exact h.unique o₁ o₂ k' h₁' h₂'
  · intro o' k' hh
    rcases holds_of_give hh with ⟨-, rfl⟩ | hh
    · exact ⟨.inl rfl, fun hmem => hk (h.known _ hmem)⟩
    · exact ⟨.inr (h.kept o' k' hh).1, (h.kept o' k' hh).2⟩
  · rintro k' (rfl | hk')
    · exact .inl ⟨o, by simp [give]⟩
    · rcases h.accounted k' hk' with ⟨o', ho'⟩ | hmem
      · refine .inl ⟨o', ?_⟩
        have hne : o' ≠ o := by
          rintro rfl
          rw [ho] at ho'; cases ho'
        simpa [give, Function.update_of_ne hne] using ho'
      · exact .inr hmem

theorem Sound.release (h : c.Sound issued) (o : ο) : (c.release o).Sound issued := by
  refine ⟨?_, ?_, ?_, ?_, ?_⟩
  · intro o₁ o₂ k' h₁ h₂
    exact h.unique o₁ o₂ k' (holds_of_release h₁).2 (holds_of_release h₂).2
  · intro o' k' hh
    obtain ⟨hne, hh⟩ := holds_of_release hh
    refine ⟨(h.kept o' k' hh).1, fun hk' => ?_⟩
    rcases mem_release.mp hk' with hk' | ho
    · exact (h.kept o' k' hh).2 hk'
    · exact hne (h.unique o' o k' hh ho)
  · cases ho : c.holds o with
    | none => simpa [Custody.release, ho] using h.nodup
    | some k' =>
      simp only [Custody.release, ho, Option.toList_some]
      refine List.nodup_append.mpr ⟨h.nodup, List.nodup_singleton k', ?_⟩
      rintro x hx y hy rfl
      obtain rfl := List.mem_singleton.mp hy
      exact (h.kept o x ho).2 hx
  · intro k' hk'
    rcases mem_release.mp hk' with hk' | ho
    · exact h.known k' hk'
    · exact (h.kept o k' ho).1
  · intro k' hk'
    rcases h.accounted k' hk' with ⟨o', ho'⟩ | hrel
    · rcases eq_or_ne o' o with rfl | hne
      · exact .inr (mem_release.mpr (.inr ho'))
      · exact .inl ⟨o', by simpa [Custody.release, Function.update_of_ne hne] using ho'⟩
    · exact .inr (mem_release.mpr (.inl hrel))

/-- A move to a holder that has none. -/
theorem Sound.move (h : c.Sound issued) (hd : c.holds dst = none) :
    (c.move dst src).Sound issued := by
  refine ⟨?_, ?_, h.nodup, h.known, ?_⟩
  · intro o₁ o₂ k' h₁ h₂
    obtain ⟨hs₁, h₁⟩ := holds_of_move h₁
    obtain ⟨hs₂, h₂⟩ := holds_of_move h₂
    rcases h₁ with ⟨hd₁, h₁⟩ | h₁ <;> rcases h₂ with ⟨hd₂, h₂⟩ | h₂
    · rw [hd₁, hd₂]
    · exact absurd (h.unique o₂ src k' h₂ h₁) hs₂
    · exact absurd (h.unique o₁ src k' h₁ h₂) hs₁
    · exact h.unique o₁ o₂ k' h₁ h₂
  · intro o' k' hh
    rcases (holds_of_move hh).2 with ⟨-, hh⟩ | hh
    · exact h.kept src k' hh
    · exact h.kept o' k' hh
  · intro k' hk'
    rcases h.accounted k' hk' with ⟨o', ho'⟩ | hrel
    · left
      have hne : o' ≠ dst := by
        rintro rfl
        rw [hd] at ho'; cases ho'
      rcases eq_or_ne o' src with rfl | hs
      · exact ⟨dst, by simp [Custody.move, Function.update_of_ne hne.symm, ho']⟩
      · exact ⟨o', by simpa [Custody.move, Function.update_of_ne hs, Function.update_of_ne hne] using ho'⟩
    · exact .inr hrel

end Custody
