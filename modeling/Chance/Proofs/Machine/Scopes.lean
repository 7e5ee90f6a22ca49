import Chance.Proofs.Syntax.Compiled
import Chance.Machine.Run

/-!
# Names in scopes

A name has the value of its latest binding in the innermost frame that binds it.

- `frameLookup`: the latest binding in a frame,
- `lookup?_cons`: frames are looked through from the innermost one,
- `lookup?_rel`, `frameLookup_rel`: related bindings give related values,
- `startEnv`: the scope that a compiled program starts in.
-/

namespace Chance

/-- The latest binding of a name in a frame. -/
def frameLookup (frame : Frame) (x : String) : Option Value :=
  (frame.reverse.find? fun b => b.1 == x).map Prod.snd

theorem lookup?_cons (frame : Frame) (env : Env) (x : String) :
    Env.lookup? (frame :: env) x = (frameLookup frame x).or (env.lookup? x) := by
  simp only [Env.lookup?, List.findSome?_cons, frameLookup]
  cases (frame.reverse.find? fun b => b.1 == x).map Prod.snd <;> rfl

section Frames

variable {frame : Frame} {env : Env} {x : String} {v : Value}

theorem frameLookup_append (before after : Frame) :
    frameLookup (before ++ after) x = (frameLookup after x).or (frameLookup before x) := by
  simp only [frameLookup, List.reverse_append, List.find?_append]
  cases after.reverse.find? fun b => b.1 == x <;> rfl

theorem frameLookup_singleton (y : String) (v : Value) :
    frameLookup [(y, v)] x = if y = x then some v else none := by
  simp only [frameLookup, List.reverse_singleton, List.find?_singleton, beq_iff_eq]
  split_ifs <;> rfl

theorem frameLookup_eq_none (h : ∀ b ∈ frame, b.1 ≠ x) : frameLookup frame x = none := by
  rw [frameLookup, Option.map_eq_none_iff, List.find?_eq_none]
  intro b hb
  simpa using h b (List.mem_reverse.1 hb)

theorem frameLookup_isSome (h : x ∈ frame.map Prod.fst) : ∃ v, frameLookup frame x = some v := by
  obtain ⟨b, hb, rfl⟩ := List.mem_map.1 h
  have hsome : (frame.reverse.find? fun c => c.1 == b.1).isSome :=
    List.find?_isSome.2 ⟨b, List.mem_reverse.2 hb, beq_self_eq_true _⟩
  obtain ⟨c, hc⟩ := Option.isSome_iff_exists.1 hsome
  exact ⟨c.2, by rw [frameLookup, hc, Option.map_some]⟩

theorem lookup?_here {before after : Frame} (h : ∀ b ∈ after, b.1 ≠ x) :
    Env.lookup? ((before ++ (x, v) :: after) :: env) x = some v := by
  rw [lookup?_cons, List.append_cons, frameLookup_append, frameLookup_append,
    frameLookup_eq_none h, frameLookup_singleton, if_pos rfl]
  rfl

theorem lookup?_bound (env : Env) (x : String) (v : Value) :
    Env.lookup? ([(x, v)] :: env) x = some v := by
  rw [lookup?_cons, frameLookup_singleton, if_pos rfl]
  rfl

theorem lookup?_outside (h : ∀ b ∈ frame, b.1 ≠ x) :
    Env.lookup? (frame :: env) x = Env.lookup? env x := by
  rw [lookup?_cons, frameLookup_eq_none h, Option.none_or]

theorem lookup?_eq_none (h : ∀ frame ∈ env, ∀ b ∈ frame, b.1 ≠ x) : env.lookup? x = none := by
  refine List.findSome?_eq_none_iff.2 fun frame hframe => ?_
  exact frameLookup_eq_none (h frame hframe)

theorem lookup?_mem (h : env.lookup? x = some v) : ∃ frame ∈ env, (x, v) ∈ frame := by
  obtain ⟨frame, hframe, hfind⟩ := List.exists_of_findSome?_eq_some h
  obtain ⟨⟨y, w⟩, hb, rfl⟩ := Option.map_eq_some_iff.1 hfind
  obtain rfl : y = x := by simpa using List.find?_some hb
  exact ⟨frame, hframe, List.mem_reverse.1 (List.mem_of_find?_eq_some hb)⟩

end Frames

/-! ## Related bindings -/

section Related

variable {R : Value → Value → Prop} {x y : Option Value}

theorem optionOr_rel {x' y' : Option Value} (h : Option.Rel R x y) (h' : Option.Rel R x' y') :
    Option.Rel R (x.or x') (y.or y') := by
  cases h with
  | none => exact h'
  | some hv => exact .some hv

theorem optionRel_imp {S : Value → Value → Prop} (h : Option.Rel R x y)
    (himp : ∀ v w, x = some v → R v w → S v w) : Option.Rel S x y := by
  cases h with
  | none => exact .none
  | some hv => exact .some (himp _ _ rfl hv)

theorem frameLookup_rel {frame frame' : Frame} (h : List.Forall₂ (FieldLike R) frame frame')
    (x : String) : Option.Rel R (frameLookup frame x) (frameLookup frame' x) := by
  have hfind := find?_rel (p := fun b => b.1 == x) (q := fun b => b.1 == x)
    (List.rel_reverse h) fun b c hbc => by rw [hbc.key]
  exact optionMap_rel hfind fun _ _ hbc => hbc.value

/-- Where all bindings are related to themselves, so is what a name has. -/
theorem lookup?_rel {env : Env} (h : ∀ frame ∈ env, ∀ b ∈ frame, R b.2 b.2) (x : String) :
    Option.Rel R (env.lookup? x) (env.lookup? x) := by
  cases hlookup : env.lookup? x with
  | none => exact .none
  | some v =>
    obtain ⟨frame, hframe, hb⟩ := lookup?_mem hlookup
    exact .some (h frame hframe _ hb)

end Related

/-! ## The first scope -/

/-- The first scope of a compiled program. -/
def startEnv (m : Machine) : Env :=
  [(Compile.generated "k" 0, .cont m.nextId .exit), (Compile.generated "address" 0, .str "")] ::
    globalEnv

/-- All that is there from the start is made of numbers and of functions of the language. -/
theorem forall_globalEnv {P : Value → Prop} (hnum : ∀ x, P (.num x))
    (hprimitive : ∀ p, P (.primitive p)) (hbuiltin : ∀ b, P (.builtin b))
    (hobject : ∀ {fs : List (String × Value)}, (∀ f ∈ fs, P f.2) → P (.object fs)) :
    ∀ frame ∈ globalEnv, ∀ b ∈ frame, P b.2 := by
  have hmath : P mathObject := by
    refine hobject ?_
    simp only [List.forall_mem_cons, hnum, hprimitive, true_and]
    exact nofun
  refine List.forall_mem_singleton.2
    (List.forall_mem_append.2 ⟨List.forall_mem_append.2 ⟨?_, ?_⟩, ?_⟩)
  · simp only [List.forall_mem_cons, hmath, hnum, true_and]
    exact nofun
  · exact List.forall_mem_map.2 fun p _ => hprimitive p
  · exact List.forall_mem_map.2 fun b _ => hbuiltin b

theorem ofCode_run (e : Expr) (fuel : Nat) (m : Machine) :
    (Program.ofCode e).run fuel m =
      (evalTail (startEnv m) e >>= Step.run fuel) { m with nextId := m.nextId + 2 } :=
  rfl

end Chance
