import Mathlib.Data.List.Infix
import Mathlib.Order.Basic

/-! A FIFO pipe, as seen from outside: what went in and what came out, the latter always a prefix of
    the former. Nothing is lost, duplicated or reordered in a pipe by construction; a component
    implements a pipe when each of its steps only extends the two ends (`≤`). -/

/-- The two ends of a FIFO pipe. -/
@[ext]
structure Pipe (α : Type*) where
  sent : List α
  delivered : List α
  isPrefix : delivered <+: sent

namespace Pipe
variable {α : Type*} {p q : Pipe α}

/-- A later moment of the same pipe: both ends have only grown. -/
instance : Preorder (Pipe α) where
  le p q := p.sent <+: q.sent ∧ p.delivered <+: q.delivered
  le_refl p := ⟨List.prefix_rfl, List.prefix_rfl⟩
  le_trans _ _ _ h₁ h₂ := ⟨h₁.1.trans h₂.1, h₁.2.trans h₂.2⟩

theorem le_def : p ≤ q ↔ p.sent <+: q.sent ∧ p.delivered <+: q.delivered := Iff.rfl

/-- What went in by an earlier moment and has come out by a later one is decided by length. -/
theorem delivered_of_le {xs : List α} (hxs : xs <+: p.sent) (hlen : xs.length ≤ p.delivered.length) :
    xs <+: p.delivered :=
  List.prefix_of_prefix_length_le hxs p.isPrefix hlen

/-! ### Pipes in a row -/

/-- Two pipes in a row: what the first has delivered is all that the second can be fed. -/
def comp (p q : Pipe α) (h : q.sent <+: p.delivered) : Pipe α :=
  ⟨p.sent, q.delivered, q.isPrefix.trans (h.trans p.isPrefix)⟩

/-- Pipes in a row go on when both of them do. -/
theorem comp_le_comp {p' q' : Pipe α} {h : q.sent <+: p.delivered} {h' : q'.sent <+: p'.delivered}
    (hp : p ≤ p') (hq : q ≤ q') : p.comp q h ≤ p'.comp q' h' :=
  ⟨hp.1, hq.2⟩

end Pipe
