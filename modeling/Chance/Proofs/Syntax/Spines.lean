import Mathlib.Data.List.Basic
import Chance.Proofs.Syntax.Paths

/-!
# Normal form of linear lists

The spine of a statement list is what stands in the list itself, outside of the arms of its
conditionals. Linearizing makes a spine of the list and one of each arm that what follows a
conditional is distributed into; all other conditionals are kept as they are. No block and no return
is left on these spines, so a linear list is linear already.

- `distributed`: the arms that what follows them is distributed into,
- `keptChoices`: the conditionals that are kept,
- `Stmt.OnSpine`: the statements that can stand on a spine,
- `linearize_reaches_normal_form`: linearizing twice is linearizing once.
-/

namespace Chance

/-! ## Arms and conditionals -/

mutual

/-- The arms of the conditionals with a return in a statement before `after`, each linearized onto
what follows it. -/
def Stmt.distributed : Stmt → List Stmt → List (List Stmt)
  | .block body, after => distributed body after
  | .ifElse _ c a, after =>
    if anyReturn c || anyReturn a then
      linearizeOnto c after :: linearizeOnto a after :: (distributed c after ++ distributed a after)
    else []
  | .empty, _ | .expr _, _ | .declare _, _ | .ret _, _ => []
termination_by structural s => s

def distributed : List Stmt → List Stmt → List (List Stmt)
  | [], _ => []
  | s :: ss, after => s.distributed (linearizeOnto ss after) ++ distributed ss after
termination_by structural ss => ss

end

mutual

/-- The conditionals without a return that stand in no other such conditional. -/
def Stmt.keptChoices : Stmt → List Stmt
  | .block body => keptChoices body
  | .ifElse t c a =>
    if anyReturn c || anyReturn a then keptChoices c ++ keptChoices a else [.ifElse t c a]
  | .empty | .expr _ | .declare _ | .ret _ => []
termination_by structural s => s

def keptChoices : List Stmt → List Stmt
  | [] => []
  | s :: ss => s.keptChoices ++ keptChoices ss
termination_by structural ss => ss

end

/-- A statement that is neither a return nor a block, and whose arms, if it has any, are among
`arms` unless it is one of `kept`. -/
inductive Stmt.OnSpine (kept : List Stmt) (arms : List (List Stmt)) : Stmt → Prop where
  | empty : OnSpine kept arms .empty
  | expr (e : Expr) : OnSpine kept arms (.expr e)
  | declare (ds : List (String × Expr)) : OnSpine kept arms (.declare ds)
  | keptChoice {t : Expr} {c a : List Stmt} (h : .ifElse t c a ∈ kept) :
    OnSpine kept arms (.ifElse t c a)
  | distributed (t : Expr) {c a : List Stmt} (hc : c ∈ arms) (ha : a ∈ arms) :
    OnSpine kept arms (.ifElse t c a)

/-- All statements of the list can stand on a spine. -/
abbrev IsSpine (kept : List Stmt) (arms : List (List Stmt)) (ss : List Stmt) : Prop :=
  ∀ s ∈ ss, s.OnSpine kept arms

/-! ## Spines that linearizing makes -/

section Spines

variable {kept : List Stmt} {arms : List (List Stmt)}

mutual

theorem Stmt.linearizeOnto_isSpine : ∀ (s : Stmt) {after : List Stmt}, s.keptChoices ⊆ kept →
    s.distributed after ⊆ arms → IsSpine kept arms after → IsSpine kept arms (s.linearizeOnto after)
  | .empty, _, _, _, h => List.forall_mem_cons.2 ⟨.empty, h⟩
  | .expr e, _, _, _, h => List.forall_mem_cons.2 ⟨.expr e, h⟩
  | .declare ds, _, _, _, h => List.forall_mem_cons.2 ⟨.declare ds, h⟩
  | .ret e, _, _, _, _ => List.forall_mem_singleton.2 (.expr e)
  | .block body, _, hkept, harms, h => Chance.linearizeOnto_isSpine body hkept harms h
  | .ifElse t c a, after, hkept, harms, h => by
    rw [Stmt.keptChoices] at hkept
    rw [Stmt.distributed] at harms
    rw [Stmt.linearizeOnto]
    split_ifs at hkept harms ⊢
    · refine List.forall_mem_singleton.2 (.distributed t (harms ?_) (harms ?_))
      · exact List.mem_cons_self
      · exact List.mem_cons_of_mem _ List.mem_cons_self
    · exact List.forall_mem_cons.2 ⟨.keptChoice (hkept (List.mem_singleton_self _)), h⟩

theorem linearizeOnto_isSpine : ∀ (ss : List Stmt) {after : List Stmt}, keptChoices ss ⊆ kept →
    distributed ss after ⊆ arms → IsSpine kept arms after →
    IsSpine kept arms (linearizeOnto ss after)
  | [], _, _, _, h => h
  | s :: ss, _, hkept, harms, h => by
    obtain ⟨hkept, hkept'⟩ := List.append_subset.1 hkept
    obtain ⟨harms, harms'⟩ := List.append_subset.1 harms
    exact s.linearizeOnto_isSpine hkept harms (linearizeOnto_isSpine ss hkept' harms' h)

end

mutual

/-- What follows a statement may be on a spine of its own: it is copied into both arms, and there
into the arms of what stands in them. -/
theorem Stmt.distributed_isSpine : ∀ (s : Stmt) {after : List Stmt}, s.keptChoices ⊆ kept →
    s.distributed after ⊆ arms → IsSpine kept arms after →
    ∀ arm ∈ s.distributed after, IsSpine kept arms arm
  | .empty, _, _, _, _ | .expr _, _, _, _, _ | .declare _, _, _, _, _ | .ret _, _, _, _, _ =>
    List.forall_mem_nil _
  | .block body, _, hkept, harms, h => Chance.distributed_isSpine body hkept harms h
  | .ifElse t c a, after, hkept, harms, h => by
    rw [Stmt.keptChoices] at hkept
    rw [Stmt.distributed] at harms ⊢
    split_ifs at hkept harms ⊢
    · obtain ⟨hkeptc, hkepta⟩ := List.append_subset.1 hkept
      obtain ⟨-, harms⟩ := List.cons_subset.1 harms
      obtain ⟨-, harms⟩ := List.cons_subset.1 harms
      obtain ⟨harmsc, harmsa⟩ := List.append_subset.1 harms
      refine List.forall_mem_cons.2 ⟨Chance.linearizeOnto_isSpine c hkeptc harmsc h, ?_⟩
      refine List.forall_mem_cons.2 ⟨Chance.linearizeOnto_isSpine a hkepta harmsa h, ?_⟩
      refine List.forall_mem_append.2 ⟨?_, ?_⟩
      · exact Chance.distributed_isSpine c hkeptc harmsc h
      · exact Chance.distributed_isSpine a hkepta harmsa h
    · exact List.forall_mem_nil _

theorem distributed_isSpine : ∀ (ss : List Stmt) {after : List Stmt}, keptChoices ss ⊆ kept →
    distributed ss after ⊆ arms → IsSpine kept arms after →
    ∀ arm ∈ distributed ss after, IsSpine kept arms arm
  | [], _, _, _, _ => List.forall_mem_nil _
  | s :: ss, _, hkept, harms, h => by
    obtain ⟨hkept, hkept'⟩ := List.append_subset.1 hkept
    obtain ⟨harms, harms'⟩ := List.append_subset.1 harms
    refine List.forall_mem_append.2 ⟨?_, distributed_isSpine ss hkept' harms' h⟩
    exact s.distributed_isSpine hkept harms (linearizeOnto_isSpine ss hkept' harms' h)

end

/-! ## Lists that are linear already -/

theorem Stmt.OnSpine.linearizeOnto_eq {s : Stmt} (h : s.OnSpine kept arms)
    (hs : s.hasReturn = false) (after : List Stmt) : s.linearizeOnto after = s :: after := by
  cases h with
  | empty => rfl
  | expr => rfl
  | declare => rfl
  | keptChoice | distributed =>
    rw [Stmt.hasReturn] at hs
    rw [Stmt.linearizeOnto, hs, if_neg Bool.false_ne_true]

theorem linearizeOnto_of_isSpine {ss : List Stmt} (h : IsSpine kept arms ss)
    (hss : anyReturn ss = false) (after : List Stmt) : linearizeOnto ss after = ss ++ after := by
  induction ss with
  | nil => rfl
  | cons s ss ih =>
    obtain ⟨hs, hrest⟩ := List.forall_mem_cons.1 h
    obtain ⟨hsReturn, hrestReturn⟩ := Bool.or_eq_false_iff.1 hss
    rw [linearizeOnto, ih hrest hrestReturn, hs.linearizeOnto_eq hsReturn, List.cons_append]

end Spines

/-- Linearizing reaches its normal form at once. The linear form of a list holds no return. On its
spine, and on the spine of every arm that was distributed into, stand only empty statements,
expressions, declarations and conditionals, of which each has arms that were distributed into or is
a conditional without a return of the list itself. Linearizing it again changes nothing. -/
theorem linearize_reaches_normal_form (ss : List Stmt) :
    anyReturn (linearize ss) = false ∧
      (∀ spine ∈ linearize ss :: distributed ss [],
        IsSpine (keptChoices ss) (distributed ss []) spine) ∧
      linearize (linearize ss) = linearize ss := by
  have hreturn : anyReturn (linearize ss) = false := anyReturn_linearizeOnto ss rfl
  have hspine : IsSpine (keptChoices ss) (distributed ss []) (linearize ss) :=
    linearizeOnto_isSpine ss (List.Subset.refl _) (List.Subset.refl _) (List.forall_mem_nil _)
  have harms : ∀ arm ∈ distributed ss [], IsSpine (keptChoices ss) (distributed ss []) arm :=
    distributed_isSpine ss (List.Subset.refl _) (List.Subset.refl _) (List.forall_mem_nil _)
  refine ⟨hreturn, List.forall_mem_cons.2 ⟨hspine, harms⟩, ?_⟩
  calc linearize (linearize ss)
      = linearize ss ++ [] := linearizeOnto_of_isSpine hspine hreturn []
    _ = linearize ss := List.append_nil _

end Chance
