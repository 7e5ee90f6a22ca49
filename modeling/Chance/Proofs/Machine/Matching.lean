import Mathlib.Order.Notation

/-!
# Matchings

Two runs give out identities of their own. A `Matching` says which identities of the one correspond
to which of the other. It grows while both runs go on.
-/

namespace Chance

/-- Which identities of one run correspond to which of another, one to one. -/
structure Matching where
  ids : Nat → Nat → Prop
  unique : ∀ {i j i' j' : Nat}, ids i j → ids i' j' → (i = i' ↔ j = j')

namespace Matching

instance : LE Matching := ⟨fun π ρ => ∀ i j, π.ids i j → ρ.ids i j⟩

theorem le_refl (π : Matching) : π ≤ π := fun _ _ h => h

theorem le_trans {π ρ τ : Matching} (h : π ≤ ρ) (h' : ρ ≤ τ) : π ≤ τ :=
  fun i j hij => h' i j (h i j hij)

/-- No identity corresponds to another. -/
def empty : Matching where
  ids _ _ := False
  unique := False.elim

/-- One more correspondence. -/
def insert (π : Matching) (i j : Nat) (hi : ∀ j', ¬ π.ids i j') (hj : ∀ i', ¬ π.ids i' j) :
    Matching where
  ids i' j' := π.ids i' j' ∨ i' = i ∧ j' = j
  unique := by
    intro a b a' b' h h'
    rcases h with h | ⟨rfl, rfl⟩ <;> rcases h' with h' | ⟨rfl, rfl⟩
    · exact π.unique h h'
    · exact iff_of_false (fun heq => hi b (heq ▸ h)) fun heq => hj a (heq ▸ h)
    · exact iff_of_false (fun heq => hi b' (heq ▸ h')) fun heq => hj a' (heq ▸ h')
    · exact iff_of_true rfl rfl

/-- The second is the first with more correspondences, between identities that both runs give out
from a number of their own on. -/
structure Grows (π ρ : Matching) (first first' : Nat) : Prop where
  le : π ≤ ρ
  since : ∀ i j, ρ.ids i j → π.ids i j ∨ first ≤ i ∧ first' ≤ j

namespace Grows

theorem refl (π : Matching) (first first' : Nat) : π.Grows π first first' :=
  ⟨le_refl π, fun _ _ => .inl⟩

theorem trans {π ρ τ : Matching} {first first' later later' : Nat} (h : π.Grows ρ first first')
    (h' : ρ.Grows τ later later') (hle : first ≤ later) (hle' : first' ≤ later') :
    π.Grows τ first first' where
  le := le_trans h.le h'.le
  since i j hij := by
    rcases h'.since i j hij with hij | ⟨hi, hj⟩
    · exact h.since i j hij
    · exact .inr ⟨Nat.le_trans hle hi, Nat.le_trans hle' hj⟩

end Grows

theorem le_insert {π : Matching} {i j : Nat} (hi : ∀ j', ¬ π.ids i j')
    (hj : ∀ i', ¬ π.ids i' j) : π ≤ π.insert i j hi hj :=
  fun _ _ => .inl

end Matching

end Chance
