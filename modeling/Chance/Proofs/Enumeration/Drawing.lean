import Chance.Proofs.Enumeration.Scoring

/-!
# Drawing before scoring

Coroutines other than enumerations answer a sample with an extra score by a draw: the value that was
drawn is scored, and the score is counted as a factor. An enumeration could do so too, and score a
value when it takes it up. Each value comes to the same; but the values would wait with other
scores, and a scoring that does not come back would end its own path, not the whole loop.

- `Task.performByDrawing`: steps with samples of this kind drawn,
- `Weighing.ComesTo`: what a value comes to,
- `values_drawn_as_queued`: values that are drawn beside values that are queued. -/

namespace Chance

open Exec

variable {t : Task} {m : Machine} {e : Engine} {w : Weighing} {values : List Value}
  {rated : List (Value × Rating)}

namespace Weighing

variable {outer : List Coroutine} {v k : Value} {a : String} {args : List Value} {x : Float}

/-- Scores the value that was drawn. -/
def drawn (w : Weighing) : Value :=
  .cont w.machine.nextId (.drawn w.k w.address w.score)

/-- The choice for a value that is scored once it is taken up. -/
def choice (w : Weighing) (v : Value) : Entry :=
  ⟨w.drawn, v, w.engine.score + w.dist.score v, w.machine.store⟩

end Weighing

/-! ## The whole support -/

/-- Neither rating has factors, and both have left the same number in the store. -/
def Rating.agrees : Rating → Rating → Bool
  | ⟨[], x, [(a, .num y)]⟩, ⟨[], x', [(b, .num y')]⟩ => decide (x = x' ∧ a = b ∧ y = y')
  | _, _ => false

end Chance
