import Chance.Compile.Linear

/-!
# Paths through statement lists

A path through a statement list is what is performed when the tests on it come out in a given way:
tests, expression statements and declarations, in order. A return performs its expression and ends
the path, whatever blocks and conditionals it stands in. No path through a linear list ends at a
return, and linear lists have the paths of the lists they come from.

Main declarations:

- `walk`: the path through a list under a sequence of outcomes of its tests,
- `walk_linearizeOnto`: the path through a list that is linearized onto another,
- `linearize_keeps_paths`: a list and its linear form have the same paths.
-/

namespace Chance

/-! ## Paths -/

/-- What is performed along a path. -/
inductive Act where
  | test (e : Expr)
  | expr (e : Expr)
  | declare (name : String) (init : Expr)

/-- How a path ends: past the last statement or at a return, with the outcomes that are left, or at
a test for which there is no outcome. -/
inductive Ending where
  | past (left : List Bool)
  | returned (left : List Bool)
  | cut

/-- The ending with a return taken for the end of the list. -/
def Ending.settled : Ending → Ending
  | .past left => .past left
  | .returned left => .past left
  | .cut => .cut

structure Path where
  acts : List Act
  ending : Ending

namespace Path

/-- The path that goes on with `next` unless it has ended. -/
def followed (p : Path) (next : List Bool → Path) : Path :=
  match p.ending with
  | .past left => ⟨p.acts ++ (next left).acts, (next left).ending⟩
  | _ => p

/-- The path after the act `a`. -/
def after (a : Act) (p : Path) : Path :=
  ⟨a :: p.acts, p.ending⟩

/-- The path with nothing said of where it returned. -/
def settled (p : Path) : Path :=
  ⟨p.acts, p.ending.settled⟩

variable (p : Path) (a : Act) (f g : List Bool → Path)

theorem after_settled : (p.after a).settled = p.settled.after a :=
  rfl

theorem after_followed : (p.after a).followed f = (p.followed f).after a := by
  rcases p with ⟨acts, _ | _ | _⟩ <;> rfl

theorem followed_nil : p.followed (fun left => ⟨[], .past left⟩) = p := by
  rcases p with ⟨acts, left | left | _⟩
  · exact congrArg (Path.mk · _) acts.append_nil
  · rfl
  · rfl

theorem followed_assoc :
    (p.followed f).followed g = p.followed fun left => (f left).followed g := by
  rcases p with ⟨acts, left | left | _⟩
  · rcases h : f left with ⟨acts', _ | _ | _⟩ <;> simp [followed, h]
  · rfl
  · rfl

theorem followed_settled (h : ∀ left, (f left).settled = (g left).settled) :
    (p.followed f).settled = (p.followed g).settled := by
  rcases p with ⟨acts, left | left | _⟩
  · rcases Path.mk.inj (h left) with ⟨hacts, hending⟩
    simp only [followed, settled, hacts, hending]
  · rfl
  · rfl

end Path

mutual

/-- The path through a statement with the given outcomes of tests, taken in the order in which the
tests are reached. -/
def Stmt.walk : Stmt → List Bool → Path
  | .empty, outcomes => ⟨[], .past outcomes⟩
  | .expr e, outcomes => ⟨[.expr e], .past outcomes⟩
  | .declare ds, outcomes => ⟨ds.map fun d => .declare d.1 d.2, .past outcomes⟩
  | .ret e, outcomes => ⟨[.expr e], .returned outcomes⟩
  | .block body, outcomes => walk body outcomes
  | .ifElse t _ _, [] => ⟨[.test t], .cut⟩
  | .ifElse t c _, true :: outcomes => (walk c outcomes).after (.test t)
  | .ifElse t _ a, false :: outcomes => (walk a outcomes).after (.test t)
termination_by structural s => s

/-- The path through a statement list. -/
def walk : List Stmt → List Bool → Path
  | [], outcomes => ⟨[], .past outcomes⟩
  | s :: ss, outcomes => (s.walk outcomes).followed (walk ss)
termination_by structural ss => ss

end

theorem walk_singleton (s : Stmt) (outcomes : List Bool) : walk [s] outcomes = s.walk outcomes :=
  Path.followed_nil _

/-! ## Paths of linear lists -/

mutual

theorem Stmt.walk_linearizeOnto : ∀ (s : Stmt) (after : List Stmt) (outcomes : List Bool),
    (Chance.walk (s.linearizeOnto after) outcomes).settled =
      ((s.walk outcomes).followed (Chance.walk after)).settled
  | .empty, _, _ => rfl
  | .expr _, _, _ => rfl
  | .declare _, _, _ => rfl
  | .ret _, _, _ => rfl
  | .block body, after, outcomes => Chance.walk_linearizeOnto body after outcomes
  | .ifElse t c a, after, outcomes => by
    rw [Stmt.linearizeOnto]
    split
    · -- What follows stands in both arms, and the path goes through one of them.
      rw [walk_singleton]
      rcases outcomes with _ | ⟨_ | _, outcomes⟩
      · rfl
      · simp only [Stmt.walk, Path.after_settled, Path.after_followed,
          Chance.walk_linearizeOnto a after outcomes]
      · simp only [Stmt.walk, Path.after_settled, Path.after_followed,
          Chance.walk_linearizeOnto c after outcomes]
    · rfl

theorem walk_linearizeOnto : ∀ (ss after : List Stmt) (outcomes : List Bool),
    (walk (linearizeOnto ss after) outcomes).settled =
      ((walk ss outcomes).followed (walk after)).settled
  | [], after, outcomes => by
    simp only [linearizeOnto, walk, Path.followed, List.nil_append]
  | s :: ss, after, outcomes => by
    calc (walk (s.linearizeOnto (linearizeOnto ss after)) outcomes).settled
        = ((s.walk outcomes).followed (walk (linearizeOnto ss after))).settled :=
          s.walk_linearizeOnto _ outcomes
      _ = ((s.walk outcomes).followed fun left => (walk ss left).followed (walk after)).settled :=
          Path.followed_settled _ _ _ (walk_linearizeOnto ss after)
      _ = (((s.walk outcomes).followed (walk ss)).followed (walk after)).settled := by
          rw [Path.followed_assoc]

end

mutual

theorem Stmt.anyReturn_linearizeOnto : ∀ (s : Stmt) {after : List Stmt}, anyReturn after = false →
    anyReturn (s.linearizeOnto after) = false
  | .empty, _, h => h
  | .expr _, _, h => h
  | .declare _, _, h => h
  | .ret _, _, _ => rfl
  | .block body, _, h => Chance.anyReturn_linearizeOnto body h
  | .ifElse t c a, after, h => by
    rw [Stmt.linearizeOnto]
    split
    · simp [anyReturn, Stmt.hasReturn, Chance.anyReturn_linearizeOnto c h,
        Chance.anyReturn_linearizeOnto a h]
    · rename_i harms
      simp only [anyReturn, Stmt.hasReturn, h, Bool.or_false]
      exact Bool.eq_false_iff.2 harms

theorem anyReturn_linearizeOnto : ∀ (ss : List Stmt) {after : List Stmt}, anyReturn after = false →
    anyReturn (linearizeOnto ss after) = false
  | [], _, h => h
  | s :: ss, _, h => s.anyReturn_linearizeOnto (anyReturn_linearizeOnto ss h)

end

mutual

theorem Stmt.walk_settled : ∀ (s : Stmt) (outcomes : List Bool), s.hasReturn = false →
    (s.walk outcomes).settled = s.walk outcomes
  | .empty, _, _ => rfl
  | .expr _, _, _ => rfl
  | .declare _, _, _ => rfl
  | .block body, outcomes, h => Chance.walk_settled body outcomes h
  | .ifElse _ _ _, [], _ => rfl
  | .ifElse t c _, true :: outcomes, h => by
    have hc := (Bool.or_eq_false_iff.1 h).1
    rw [Stmt.walk, Path.after_settled, Chance.walk_settled c outcomes hc]
  | .ifElse t _ a, false :: outcomes, h => by
    have ha := (Bool.or_eq_false_iff.1 h).2
    rw [Stmt.walk, Path.after_settled, Chance.walk_settled a outcomes ha]

theorem walk_settled : ∀ (ss : List Stmt) (outcomes : List Bool), anyReturn ss = false →
    (walk ss outcomes).settled = walk ss outcomes
  | [], _, _ => rfl
  | s :: ss, outcomes, h => by
    rcases Bool.or_eq_false_iff.1 h with ⟨hs, hss⟩
    have hpath := s.walk_settled outcomes hs
    rw [walk]
    revert hpath
    rcases s.walk outcomes with ⟨acts, left | left | _⟩ <;> intro hpath
    · exact congrArg (Path.mk _ ·.ending) (walk_settled ss left hss)
    · cases hpath
    · rfl

end

/-- The linear form of a list holds no return and, however the tests come out, performs what the
list performs with early return: the same tests, expression statements and declarations in the same
order. Where the outcomes run out, both stop at the same test, and else as many outcomes are
left. -/
theorem linearize_keeps_paths (ss : List Stmt) :
    anyReturn (linearize ss) = false ∧ ∀ outcomes : List Bool,
      (walk (linearize ss) outcomes).acts = (walk ss outcomes).acts ∧
      (walk (linearize ss) outcomes).ending = (walk ss outcomes).ending.settled := by
  have hreturn : anyReturn (linearize ss) = false := anyReturn_linearizeOnto ss rfl
  refine ⟨hreturn, fun outcomes => ?_⟩
  have hpath : walk (linearize ss) outcomes = (walk ss outcomes).settled := by
    calc walk (linearize ss) outcomes
        = (walk (linearize ss) outcomes).settled := (walk_settled _ outcomes hreturn).symm
      _ = ((walk ss outcomes).followed (walk [])).settled := walk_linearizeOnto ss [] outcomes
      _ = (walk ss outcomes).settled := congrArg Path.settled (Path.followed_nil _)
  simp only [hpath, Path.settled, and_self]

end Chance
