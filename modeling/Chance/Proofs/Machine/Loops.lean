import Chance.Proofs.Machine.Over

/-!
# Loops of calls as nested calls

`map`, `filter`, `forEach` and `repeat` call a function once for each item, each time with a
continuation of their own making. What they do is what the same calls do when they are nested in
one another: the second stands in the continuation of the first, the third in that of the second,
and the innermost continuation hands all results on. The continuations can be resumed in any order
and any number of times, in any state; each resumption sees the results that led to it.

- `Chain`: calls nested in one another, by what each of them is resumed with,
- `Chain.Does`: a task that makes these calls, and nothing else, whatever the state,
- `Loop.iterate_does`: the loop, from any item on,
- `loops_are_nested_calls`: the functions that begin such a loop.
-/

namespace Chance

/-! ## Nested calls -/

variable {t : Task} {f k : Value} {a : String}

/-- Calls that are nested in one another. -/
inductive Chain where
  /-- Hands a value to a continuation. -/
  | hand (k v : Value)
  /-- Calls a function at an address; what follows depends on the result. -/
  | call (f : Value) (address : String) (args : List Value) (next : Value → Chain)

/-- `f` called with each of the lists of arguments, each time in the continuation of the call
before: those for the items from `index` on, when `results` are the results so far. -/
def Chain.calls (f : Value) (a : String) (k : Value) (final : List Value → Value) (index : Nat) :
    List (List Value) → List Value → Chain
  | [], results => .hand k (final results)
  | args :: rest, results =>
    .call f (subaddress a (toString index)) args fun r =>
      calls f a k final (index + 1) rest (results ++ [r])

/-! ## Tasks that do nested calls -/

/-- The first task leads to the second, in however many steps. -/
inductive Passes : Task → Machine → Task → Machine → Prop
  | refl {t : Task} {m : Machine} : Passes t m t m
  | step {t t' u : Task} {m m' n : Machine} {s : Step} :
      t.perform m = .ok s m' → s.task? = some t' → Passes t' m' u n → Passes t m u n

/-- In every state, the task comes to the first of the calls with a new continuation, and changes
nothing on the way. However often that continuation is called, in whatever state and with whatever
arguments, it does what follows the call. -/
def Chain.Does : Chain → Task → Prop
  | .hand k v, t => ∀ m, Passes t m (.call k [v]) m
  | .call f address args next, t =>
    ∃ c : Cont,
      (∀ m : Machine, Passes t m (.call f (.cont m.nextId c :: .str address :: args))
        { m with nextId := m.nextId + 1 }) ∧
      ∀ (id : Nat) (vs : List Value), (next (argument vs 0)).Does (.call (.cont id c) vs)

/-- A step that changes nothing can be put in front. -/
theorem Chain.Does.of_step {n : Chain} {t' : Task} {s : Step} (hs : ∀ m, t.perform m = .ok s m)
    (ht' : s.task? = some t') (h : n.Does t') : n.Does t := by
  cases n with
  | hand k v => exact fun m => .step (hs m) ht' (h m)
  | call f address args next =>
    obtain ⟨c, hcall, hnext⟩ := h
    exact ⟨c, fun m => .step (hs m) ht' (hcall m), hnext⟩

/-! ## The loop -/

namespace Gather

/-- What the function is called with for an item, besides its continuation and its address. -/
def own (how : Gather) (item : Value) : List Value :=
  if how = .times then [] else [item]

/-- What a loop hands on when the function gave `results` for `items`. -/
def final (how : Gather) (items results : List Value) : Value :=
  match how with
  | .map | .times => .array results
  | .filter => .array (((items.zip results).filter fun p => p.2.truthy).map Prod.fst)
  | .forEach => .undefined

theorem final_nil (how : Gather) : how.final [] [] = how.start := by
  cases how <;> rfl

theorem next_final (how : Gather) {items results : List Value}
    (hlength : items.length = results.length) (item r : Value) :
    how.next (how.final items results) item r = how.final (items ++ [item]) (results ++ [r]) := by
  cases how with
  | map | times | forEach => rfl
  | filter =>
    have hzip : (items ++ [item]).zip (results ++ [r]) = items.zip results ++ [(item, r)] :=
      List.zip_append hlength
    cases hr : r.truthy with
    | true => simp [next, final, hzip, hr, List.filter_append]
    | false => simp [next, final, hzip, hr, List.filter_append]

end Gather

/-- From any item on, the loop does the calls that are left. The induction is on the items left; the
results so far are arbitrary, as are the ways in which they came about. -/
theorem Loop.iterate_does (how : Gather) (k : Value) (a : String) (f : Value) :
    ∀ (rest earlier results : List Value), earlier.length = results.length →
      (Chain.calls f a k (how.final (earlier ++ rest)) earlier.length (rest.map how.own)
        results).Does
        (.iterate (.gather how k a f) earlier.length rest (how.final earlier results))
  | [], earlier, results, _ => by
    intro m
    rw [List.append_nil]
    exact .step rfl rfl .refl
  | item :: rest, earlier, results, hlength => by
    let loop : Loop := .gather how k a f
    refine ⟨.collect loop earlier.length rest (how.final earlier results) item, ?_, ?_⟩
    · intro m
      exact .step rfl rfl .refl
    · intro id vs
      -- The continuation adds the result to what it was made with and goes on with the next item.
      have hnext := iterate_does how k a f rest (earlier ++ [item])
        (results ++ [argument vs 0]) (by simp [hlength])
      rw [← how.next_final hlength, List.append_assoc, List.length_append] at hnext
      refine .of_step (fun _ => rfl) rfl ?_
      exact .of_step (fun _ => rfl) rfl hnext

/-! ## Functions that loop -/

theorem Chain.Does.of_gather (how : Gather) {xs : List Value}
    (ht : ∀ m, t.perform m = .ok (.through (.iterate (.gather how k a f) 0 xs how.start)) m) :
    (Chain.calls f a k (how.final xs) 0 (xs.map how.own) []).Does t := by
  have hloop := Loop.iterate_does how k a f xs [] [] rfl
  rw [how.final_nil] at hloop
  exact .of_step ht rfl hloop

theorem repeatCalls_eq {x : Float} {more : List Value} (hx : ¬ x < 0)
    (hintegral : Number.isIntegral x = true) (m : Machine) :
    repeatCalls (k :: .str a :: .num x :: f :: more) m =
      .ok (.through (.iterate (.gather .times k a f) 0
        (List.replicate (Number.toCount x) .undefined) Gather.times.start)) m := by
  have htest : ¬ (decide (x < 0) || !Number.isIntegral x) = true := by
    simp [hx, hintegral]
  exact congrFun (if_neg htest) m

/-- The functions that loop are their nested calls: `map` hands on the results, `filter` the items
with a truthy result, `forEach` nothing, and `repeat` the results of as many calls without
arguments. -/
theorem loops_are_nested_calls (k f : Value) (a : String) (more : List Value) :
    (∀ xs : List Value,
      (Chain.calls f a k .array 0 (xs.map fun x => [x]) []).Does
        (.call (.builtin .map) (k :: .str a :: f :: .array xs :: more)) ∧
      (Chain.calls f a k
          (fun rs => .array (((xs.zip rs).filter fun p => p.2.truthy).map Prod.fst))
          0 (xs.map fun x => [x]) []).Does
        (.call (.builtin .filter) (k :: .str a :: f :: .array xs :: more)) ∧
      (Chain.calls f a k (fun _ => .undefined) 0 (xs.map fun x => [x]) []).Does
        (.call (.builtin .forEach) (k :: .str a :: f :: .array xs :: more))) ∧
    ∀ x : Float, ¬ x < 0 → Number.isIntegral x = true →
      (Chain.calls f a k .array 0 (List.replicate (Number.toCount x) []) []).Does
        (.call (.builtin .times) (k :: .str a :: .num x :: f :: more)) := by
  refine ⟨fun xs => ⟨?_, ?_, ?_⟩, ?_⟩
  · exact .of_gather .map fun _ => rfl
  · exact .of_gather .filter fun _ => rfl
  · exact .of_gather .forEach fun _ => rfl
  · intro x hx hintegral
    let items := List.replicate (Number.toCount x) Value.undefined
    have hdoes : (Chain.calls f a k (Gather.times.final items) 0 (items.map Gather.times.own)
        []).Does (.call (.builtin .times) (k :: .str a :: .num x :: f :: more)) :=
      .of_gather .times (repeatCalls_eq hx hintegral)
    rwa [List.map_replicate] at hdoes

/-- A function that hands `1` to its continuation. -/
def constantlyOne : Value :=
  .closure 1 none ["k", "address"] [.expr (.call (.var "k") [.num 1])] []

/-- Two calls of the function, after which the run ends. -/
theorem repeat_two_nests :
    ¬ (2 : Float) < 0 ∧ Number.isIntegral 2 = true ∧
      (Chain.calls constantlyOne "a" (.cont 0 .exit) .array 0 [[], []] []).Does
        (.call (.builtin .times) [.cont 0 .exit, .str "a", .num 2, constantlyOne]) := by
  have hx : ¬ (2 : Float) < 0 := by decide
  have hintegral : Number.isIntegral 2 = true := by decide
  have hcount : Number.toCount 2 = 2 := by decide
  have hdoes := (loops_are_nested_calls (.cont 0 .exit) constantlyOne "a" []).2 2 hx hintegral
  rw [hcount] at hdoes
  exact ⟨hx, hintegral, hdoes⟩

end Chance
