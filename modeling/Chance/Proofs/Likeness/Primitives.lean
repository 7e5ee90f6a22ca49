import Chance.Proofs.Likeness.Values
import Chance.Proofs.Likeness.Computations

/-!
# Likeness under primitive functions

Alike values have the same texts, so nothing that is computed in place tells them from one another.
Primitive functions and methods take related arguments to computations that are related step by step
(`InPlace`): they compute a value, make a new distribution or print the same line.
-/

namespace Chance

/-- Computations in place that give related values. Besides computing, such a computation may make
a distribution or print. -/
inductive InPlace (R : Value → Value → Prop) : Exec Value → Exec Value → Prop
  | pure {v w : Value} : R v w → InPlace R (pure v) (pure w)
  | throw {e : Error} {y : Exec Value} : e.isMalformed = false → InPlace R (throw e) y
  | lift {x y : Except Error Value} : Tracks R x y → InPlace R (liftM x) (liftM y)
  | bind {α β : Type} {Q : α → β → Prop} {x : Except Error α} {y : Except Error β}
      {f : α → Exec Value} {g : β → Exec Value} :
      Tracks Q x y → (∀ a b, Q a b → InPlace R (f a) (g b)) →
      InPlace R (liftM x >>= f) (liftM y >>= g)
  | newDist {d e : Dist} : DistLike R d e → InPlace R (Exec.newDist d) (Exec.newDist e)
  | print {vs ws : List Value} : List.Forall₂ R vs ws → InPlace R (printLine vs) (printLine ws)

theorem InStep.inPlace {R : Value → Value → Prop} {x y : Exec Value} (h : InStep R x y) :
    InPlace R x y := by
  induction h with
  | pure h => exact .pure h
  | throw he => exact .throw he.proper
  | lift h => exact .lift h.tracks
  | bind h _ ih => exact .bind h.tracks ih
  | newDist hd => exact .newDist hd.like
  | print hs _ => exact .print hs

namespace Likeness

variable {R : Value → Value → Prop}

/-! ## Distributions -/

section Distributions

variable (L : Likeness R) {d e : Dist}
include L

theorem distAlike (h : DistLike R d e) : DistAlike R d e :=
  ⟨h, L.texts_eq h⟩

theorem support (h : DistLike R d e) : Option.Rel (List.Forall₂ R) d.support e.support :=
  L.semblance.support h

theorem score_eq {v w : Value} (hd : DistLike R d e) (h : R v w) : d.score v = e.score w :=
  L.semblance.score_eq hd h fun _ => L.text_eq v w h

theorem sample (h : DistLike R d e) (s : Supply) :
    R (d.sample s).1 (e.sample s).1 ∧ (d.sample s).2 = (e.sample s).2 :=
  L.semblance.sample h s

end Distributions

/-! ## Arguments, members and methods -/

section Calls

variable (L : Likeness R) {vs ws : List Value} {v w : Value}
include L

theorem keys_eq (h : List.Forall₂ R vs ws) : vs.map Value.key = ws.map Value.key :=
  map_eq_of_forall₂ h fun _ _ hv => L.key_eq hv

theorem argument (h : List.Forall₂ R vs ws) (i : Nat) : R (argument vs i) (argument ws i) :=
  L.semblance.argument h i

theorem numberArgument (h : List.Forall₂ R vs ws) (i : Nat) :
    Tracks Eq (numberArgument vs i) (numberArgument ws i) :=
  L.toNumber (L.argument h i)

theorem run_inStep (p : Primitive) (h : List.Forall₂ R vs ws) : InStep R (p.run vs) (p.run ws) :=
  L.semblance.run p h fun _ => L.keys_eq h

theorem method_inStep (h : R v w) (name : String) (hs : List.Forall₂ R vs ws) :
    InStep R (callMethod v name vs) (callMethod w name ws) :=
  L.semblance.method h name hs
    { concat := fun _ _ _ => L.keys_eq hs
      indexOf := fun _ _ _ => L.key_eq (L.argument hs 0)
      score := fun _ _ _ _ _ => L.text_eq _ _ (L.argument hs 0)
      display := fun _ _ _ => L.keys_eq hs }

end Calls

end Likeness

end Chance
