import Chance.Proofs.Likeness.Computations
import Chance.Machine.Inference

/-!
# Enumerations over values that look alike

Frontiers and tallies with related values in the same places and with the same scores go on alike:
entries are queued, taken up and counted in the same order.
-/

namespace Chance

/-- The same frontier over choices that are related one by one. -/
inductive Frontier.Pointwise (E : Entry → Entry → Prop) : Frontier → Frontier → Prop
  | ranked {es fs : List Entry} :
      List.Forall₂ E es fs → Frontier.Pointwise E (.ranked es) (.ranked fs)
  | stack {es fs : List Entry} :
      List.Forall₂ E es fs → Frontier.Pointwise E (.stack es) (.stack fs)
  | queue {es fs es' fs' : List Entry} :
      List.Forall₂ E es fs → List.Forall₂ E es' fs' →
      Frontier.Pointwise E (.queue es es') (.queue fs fs')

namespace Frontier.Pointwise

variable {E F : Entry → Entry → Prop} {x y : Frontier}

theorem imp (h : x.Pointwise E y) (hEF : ∀ e f, E e f → F e f) : x.Pointwise F y := by
  cases h with
  | ranked hs => exact .ranked (hs.imp hEF)
  | stack hs => exact .stack (hs.imp hEF)
  | queue hs hs' => exact .queue (hs.imp hEF) (hs'.imp hEF)

theorem insert {e f : Entry} {es fs : List Entry} (hscore : ∀ e f, E e f → e.score = f.score)
    (h : E e f) (hs : List.Forall₂ E es fs) :
    List.Forall₂ E (Frontier.insert e es) (Frontier.insert f fs) := by
  induction hs with
  | nil => exact .cons h .nil
  | cons hg hs ih =>
    simp only [Frontier.insert, hscore _ _ h, hscore _ _ hg]
    split_ifs
    · exact .cons hg ih
    · exact .cons h (.cons hg hs)

theorem push {e f : Entry} (hx : x.Pointwise E y) (hscore : ∀ e f, E e f → e.score = f.score)
    (h : E e f) : (x.push e).Pointwise E (y.push f) := by
  cases hx with
  | ranked hs => exact .ranked (insert hscore h hs)
  | stack hs => exact .stack (.cons h hs)
  | queue hs hs' => exact .queue hs (.cons h hs')

theorem pop? (hx : x.Pointwise E y) :
    Option.Rel (fun p q => E p.1 q.1 ∧ p.2.Pointwise E q.2) x.pop? y.pop? := by
  cases hx with
  | ranked hs =>
    cases hs with
    | nil => exact .none
    | cons h hs => exact .some ⟨h, .ranked hs⟩
  | stack hs =>
    cases hs with
    | nil => exact .none
    | cons h hs => exact .some ⟨h, .stack hs⟩
  | @queue es fs es' fs' hs hs' =>
    cases hs with
    | cons h hs => exact .some ⟨h, .queue hs hs'⟩
    | nil =>
      -- The second list becomes the first, the other way round.
      have hreverse := List.rel_reverse hs'
      simp only [Frontier.pop?]
      generalize es'.reverse = ys at hreverse ⊢
      generalize fs'.reverse = zs at hreverse ⊢
      cases hreverse with
      | nil => exact .none
      | cons h hs => exact .some ⟨h, .queue hs .nil⟩

theorem isEmpty_eq (hx : x.Pointwise E y) : x.isEmpty = y.isEmpty := by
  cases hx with
  | ranked hs => cases hs <;> rfl
  | stack hs => cases hs <;> rfl
  | queue hs hs' => cases hs <;> cases hs' <;> rfl

theorem clear (hx : x.Pointwise E y) : x.clear.Pointwise E y.clear := by
  cases hx with
  | ranked _ => exact .ranked .nil
  | stack _ => exact .stack .nil
  | queue _ _ => exact .queue .nil .nil

theorem empty (s : Strategy) : (Frontier.empty s).Pointwise E (Frontier.empty s) := by
  cases s with
  | likelyFirst => exact .ranked .nil
  | depthFirst => exact .stack .nil
  | breadthFirst => exact .queue .nil .nil

theorem same (h : ∀ e ∈ x.toList, E e e) : x.Pointwise E x := by
  cases x with
  | ranked es => exact .ranked (List.forall₂_same.2 h)
  | stack es => exact .stack (List.forall₂_same.2 h)
  | queue front back =>
    obtain ⟨hfront, hback⟩ := List.forall_mem_append.1 h
    refine .queue (List.forall₂_same.2 hfront) (List.forall₂_same.2 fun e he => ?_)
    exact hback e (List.mem_reverse.2 he)

theorem toList (h : x.Pointwise E y) : List.Forall₂ E x.toList y.toList := by
  cases h with
  | ranked hs => exact hs
  | stack hs => exact hs
  | queue hs hs' => exact List.rel_append hs (List.rel_reverse hs')

end Frontier.Pointwise

/-- Results that were counted alike. -/
structure TallyEntry.Like (R : Value → Value → Prop) (e f : TallyEntry) : Prop where
  key : e.key = f.key
  value : R e.value f.value
  text : e.value.text = f.value.text
  score : e.score = f.score

/-- Whether a result with the given score is counted. -/
def Tally.counts (score : Float) : Bool :=
  !(score == Number.negInfinity || score.isNaN)

variable {R : Value → Value → Prop}

namespace Tally

variable {v w : Value} {t u : Tally}

theorem addEntry_like {key : String} {es fs : List TallyEntry} (score : Float) (h : R v w)
    (htext : v.text = w.text) (hs : List.Forall₂ (TallyEntry.Like R) es fs) :
    List.Forall₂ (TallyEntry.Like R) (addEntry key v score es) (addEntry key w score fs) := by
  induction hs with
  | nil => exact .cons ⟨rfl, h, htext, rfl⟩ .nil
  | cons he hs ih =>
    simp only [addEntry, he.key]
    split_ifs
    · exact .cons ⟨rfl, he.value, he.text, by rw [he.score]⟩ hs
    · exact .cons he ih

theorem add_like (score : Float) (ht : List.Forall₂ (TallyEntry.Like R) t.entries u.entries)
    (h : R v w) (htext : Tally.counts score = true → v.text = w.text) :
    List.Forall₂ (TallyEntry.Like R) (t.add v score).entries (u.add w score).entries := by
  rw [Tally.add, Tally.add]
  split_ifs with hscore
  · exact ht
  · have hsame := htext <| by
      simpa only [Tally.counts, Bool.not_eq_true', Bool.not_eq_true] using hscore
    rw [hsame]
    exact addEntry_like score h hsame ht

theorem total_eq (ht : List.Forall₂ (TallyEntry.Like R) t.entries u.entries) :
    t.total = u.total := by
  have hfold (acc : Float) {es fs : List TallyEntry}
      (hs : List.Forall₂ (TallyEntry.Like R) es fs) :
      es.foldl (fun acc e => Number.logAddExp acc e.score) acc =
        fs.foldl (fun acc e => Number.logAddExp acc e.score) acc := by
    induction hs generalizing acc with
    | nil => rfl
    | cons he _ ih => rw [List.foldl_cons, List.foldl_cons, he.score, ih]
  exact hfold _ ht

theorem marginal_like (ht : List.Forall₂ (TallyEntry.Like R) t.entries u.entries) :
    Agrees R (DistAlike R) t.marginal u.marginal := by
  have hshares : List.Forall₂ (ShareLike R) t.shares u.shares := by
    rw [Tally.shares, Tally.shares, List.forall₂_map_left_iff, List.forall₂_map_right_iff,
      total_eq ht]
    refine ht.imp fun e f he => ?_
    rw [he.key, he.score]
    exact ⟨he.value⟩
  have htexts : (Dist.marginal t.shares).texts = (Dist.marginal u.shares).texts := by
    simp only [Dist.texts, Tally.shares, List.map_map]
    exact map_eq_of_forall₂ ht fun e f he => he.text
  have hempty : t.entries.isEmpty = u.entries.isEmpty := by
    obtain ⟨es⟩ := t
    obtain ⟨fs⟩ := u
    cases ht <;> rfl
  rw [Tally.marginal, Tally.marginal, hempty]
  split_ifs
  · exact .error (.refl rfl)
  · exact .ok ⟨.marginal hshares, htexts⟩

end Tally

namespace Semblance

theorem enumerable (L : Semblance R) {d e : Dist} (h : DistAlike R d e) :
    Agrees R (List.Forall₂ fun v w => R v w ∧ d.score v = e.score w) (enumerable d)
      (enumerable e) := by
  have hsupport := L.support_scored h
  have houtline (htext : ∀ {v w : Value}, R v w → v.text = w.text) : d.outline = e.outline :=
    L.distOutline_eq htext d e h.like
  simp only [Chance.enumerable]
  generalize d.support = x at hsupport ⊢
  generalize e.support = y at hsupport ⊢
  cases hsupport with
  | none => exact .error ⟨rfl, rfl, fun htext => by rw [houtline htext]⟩
  | some hs =>
    cases hs with
    | nil => exact .error ⟨rfl, rfl, fun htext => by rw [houtline htext]⟩
    | cons hv hs => exact .ok (.cons hv hs)

end Semblance

end Chance
