import Mathlib.Data.List.Nodup
import Chance.Proofs.Machine.Steps

/-!
# Replays

A replay of an enumeration runs its function once, by itself: from the store at the call, with no
coroutine installed and the score zero. A sample takes one of the values of the distribution and
adds its score; a factor adds to the score, and ends the replay if nothing is left of it; anything
else is done by the machine. A replay ends when the function returns, or at such a factor.

Enumerations that the function begins itself are part of its replay, so the replay can only return
while none of them is installed. Tables and extra scores are left out.

- `Replay.Point.move`: what a replay does next,
- `Replay.Replays`: the replay for a sequence of choices,
- `Replay.Settles`: every sequence of choices leads to an end,
- `Replay.Unfolds`: all replays from a point, listed once each.
-/

namespace Chance

instance (l : Loop) : Decidable l.Plain :=
  match l with
  | .gather .. => .isTrue trivial
  | .weigh .. => .isFalse id

instance (c : Cont) : Decidable c.Plain :=
  match c with
  | .exit | .leave _ => .isTrue trivial
  | .collect l .. => inferInstanceAs (Decidable l.Plain)
  | .remember .. | .drawn .. | .scored .. | .weighted .. => .isFalse id

instance (t : Task) : Decidable t.Plain :=
  match t with
  | .call (.builtin b) _ => inferInstanceAs (Decidable (b ≠ .cache ∧ b ≠ .sampleWithFactor))
  | .call (.cached ..) _ => .isFalse id
  | .call (.cont _ c) _ => inferInstanceAs (Decidable c.Plain)
  | .call .undefined _ | .call .null _ | .call (.bool _) _ | .call (.num _) _ | .call (.str _) _
  | .call (.array _) _ | .call (.object _) _ | .call (.closure ..) _ | .call (.primitive _) _
  | .call (.dist ..) _ => .isTrue trivial
  | .turn l .. | .iterate l .. => inferInstanceAs (Decidable l.Plain)
  | .enter .. => .isTrue trivial

theorem Task.Asks.exists_call {t : Task} (h : t.Asks) :
    ∃ args, t = .call (.builtin .sample) args ∨ t = .call (.builtin .factor) args := by
  cases t with
  | call f args =>
    cases f with
    | builtin b =>
      rcases h with rfl | rfl
      · exact ⟨args, .inl rfl⟩
      · exact ⟨args, .inr rfl⟩
    | _ => exact h.elim
  | _ => exact h.elim

namespace Replay

/-! ## Moves -/

variable {n : Nat} {p : Point}

/-- Where a replay is: what it has to do, its state, and the score of its path. -/
structure Point where
  task : Task
  machine : Machine
  score : Float

inductive Move where
  /-- The replay ends with a value and a score. -/
  | ends (value : Value) (score : Float)
  /-- It goes on. -/
  | goes (next : Point)
  /-- It goes on at one of several points, which is for the choice to say. -/
  | chooses (next : List Point)

namespace Point

/-- The points after a sample, one for each value. -/
def atSample (p : Point) (args : List Value) : Except Error (List Point) := do
  let (k, _) ← callerOf args
  let d ← (argument args 2).toDist
  let values ← enumerable d
  return values.map fun v => ⟨.call k [v], p.machine, p.score + d.score v⟩

/-- What a factor leads to. A path without probability ends at once. -/
def atFactor (p : Point) (args : List Value) : Except Error Move := do
  let (k, _) ← callerOf args
  let x ← numberArgument args 2
  return if p.score + x == Number.negInfinity then .ends .undefined (p.score + x)
    else .goes ⟨.call k [.undefined], p.machine, p.score + x⟩

/-- What the machine does. -/
def ordinary (p : Point) : Option Move :=
  match p.task.perform p.machine with
  | .ok (.bounce t) m => some (.goes ⟨t, m, p.score⟩)
  | .ok (.through t) m => some (.goes ⟨t, m, p.score⟩)
  | _ => none

/-- What the replay of the enumeration `n` does next, if it goes well. -/
def move (n : Nat) (p : Point) : Option Move :=
  match p.machine.stack, p.task with
  | [], .call (.cont _ (.leave i)) args =>
    if i = n then some (.ends (argument args 0) p.score) else none
  | [], .call (.builtin .sample) args => (p.atSample args).toOption.map .chooses
  | [], .call (.builtin .factor) args => (p.atFactor args).toOption
  | _ :: _, .call (.cont _ (.leave i)) _ => if n < i then p.ordinary else none
  | _, t => if t.Plain then p.ordinary else none

end Point

/-- What a move says, rule by rule. -/
inductive Moves (n : Nat) (p : Point) : Move → Prop
  | returned {i : Nat} {args : List Value} :
      p.machine.stack = [] → p.task = .call (.cont i (.leave n)) args →
      Moves n p (.ends (argument args 0) p.score)
  | chosen {args : List Value} {k : Value} {a : String} {d : Dist} {values : List Value} :
      p.machine.stack = [] → p.task = .call (.builtin .sample) args →
      callerOf args = .ok (k, a) → (argument args 2).toDist = .ok d → enumerable d = .ok values →
      Moves n p (.chooses (values.map fun v => ⟨.call k [v], p.machine, p.score + d.score v⟩))
  | stopped {args : List Value} {k : Value} {a : String} {x : Float} :
      p.machine.stack = [] → p.task = .call (.builtin .factor) args →
      callerOf args = .ok (k, a) → numberArgument args 2 = .ok x →
      (p.score + x == Number.negInfinity) = true → Moves n p (.ends .undefined (p.score + x))
  | weighed {args : List Value} {k : Value} {a : String} {x : Float} :
      p.machine.stack = [] → p.task = .call (.builtin .factor) args →
      callerOf args = .ok (k, a) → numberArgument args 2 = .ok x →
      (p.score + x == Number.negInfinity) = false →
      Moves n p (.goes ⟨.call k [.undefined], p.machine, p.score + x⟩)
  | ordinary {s : Step} {t : Task} {m : Machine} :
      p.task.Plain → (p.task.Asks → p.machine.stack ≠ []) →
      (∀ i, p.task.left? = some i → n < i) → p.task.perform p.machine = .ok s m →
      (s = .bounce t ∨ s = .through t) → Moves n p (.goes ⟨t, m, p.score⟩)

theorem exists_call_of_left? {t : Task} {i : Nat} (h : t.left? = some i) :
    ∃ j args, t = .call (.cont j (.leave i)) args := by
  cases t with
  | call f args =>
    cases f with
    | cont j c =>
      cases c with
      | leave e =>
        cases h
        exact ⟨j, args, rfl⟩
      | _ => cases h
    | _ => cases h
  | _ => cases h

theorem ok_of_toOption {ε α : Type} {x : Except ε α} {a : α} (h : x.toOption = some a) :
    x = .ok a := by
  cases x with
  | error e => cases h
  | ok b =>
    cases h
    rfl

theorem moves_of_move {x : Move} (h : p.move n = some x) : Moves n p x := by
  have hordinary (hplain : p.task.Plain) (hasks : p.task.Asks → p.machine.stack ≠ [])
      (hleft : ∀ i, p.task.left? = some i → n < i) (h : p.ordinary = some x) : Moves n p x := by
    unfold Point.ordinary at h
    split at h
    · rename_i t m hperform
      cases h
      exact .ordinary hplain hasks hleft hperform (.inl rfl)
    · rename_i t m hperform
      cases h
      exact .ordinary hplain hasks hleft hperform (.inr rfl)
    · cases h
  unfold Point.move at h
  split at h
  · rename_i hstack htask
    split_ifs at h with hi
    subst hi
    cases h
    exact .returned hstack htask
  · rename_i hstack htask
    obtain ⟨qs, hqs, rfl⟩ := Option.map_eq_some_iff.1 h
    obtain ⟨⟨k, a⟩, hcaller, hrest⟩ := exists_ok_of_bind (ok_of_toOption hqs)
    obtain ⟨d, hd, hrest⟩ := exists_ok_of_bind hrest
    obtain ⟨values, hvalues, hrest⟩ := exists_ok_of_bind hrest
    cases hrest
    exact .chosen hstack htask hcaller hd hvalues
  · rename_i hstack htask
    obtain ⟨⟨k, a⟩, hcaller, hrest⟩ := exists_ok_of_bind (ok_of_toOption h)
    obtain ⟨x, hx, hrest⟩ := exists_ok_of_bind hrest
    cases hrest
    split_ifs with hzero
    · exact .stopped hstack htask hcaller hx hzero
    · exact .weighed hstack htask hcaller hx (Bool.not_eq_true _ ▸ hzero)
  · rename_i c cs i e args hstack htask
    split_ifs at h with hlt
    -- An inner enumeration is left, which is a step like any other.
    refine hordinary ?_ ?_ ?_ h
    · rw [htask]
      trivial
    · rw [hstack]
      exact fun _ => List.cons_ne_nil _ _
    · rw [htask]
      rintro _ ⟨⟩
      exact hlt
  · rename_i hleave hsample hfactor hinner
    split_ifs at h with hplain
    refine hordinary hplain ?_ ?_ h
    · -- What asks where nothing is installed was dealt with in the cases before.
      intro hasks hstack
      obtain ⟨args, htask | htask⟩ := hasks.exists_call
      · exact hsample args hstack htask
      · exact hfactor args hstack htask
    · intro i hi
      obtain ⟨j, args, htask⟩ := exists_call_of_left? hi
      cases hstack : p.machine.stack with
      | nil => exact (hleave j i args hstack htask).elim
      | cons c cs => exact (hinner c cs j i args hstack htask).elim

/-! ## Replays -/

/-- Where the replay of an enumeration begins that is called in the given state: the enumeration and
the continuation of its function take the next two identities. -/
def start (m : Machine) (thunk : Value) (address : String) : Point where
  task := .call thunk [.cont (m.nextId + 1) (.leave m.nextId), .str address]
  machine := { m with stack := [], nextId := m.nextId + 2 }
  score := 0

/-- The replay from a point for a sequence of choices, each by its place, ends with the value and
the score. -/
inductive Replays (n : Nat) : List Nat → Point → Value → Float → Prop
  | ends {p : Point} {v : Value} {s : Float} :
      p.move n = some (.ends v s) → Replays n [] p v s
  | goes {p q : Point} {cs : List Nat} {v : Value} {s : Float} :
      p.move n = some (.goes q) → Replays n cs q v s → Replays n cs p v s
  | chooses {p q : Point} {qs : List Point} {i : Nat} {cs : List Nat} {v : Value} {s : Float} :
      p.move n = some (.chooses qs) → qs[i]? = some q → Replays n cs q v s →
      Replays n (i :: cs) p v s

/-- Every sequence of choices leads to an end: the tree of choices is finite, and no path fails. -/
inductive Settles (n : Nat) : Point → Prop
  | ends {p : Point} {v : Value} {s : Float} : p.move n = some (.ends v s) → Settles n p
  | goes {p q : Point} : p.move n = some (.goes q) → Settles n q → Settles n p
  | chooses {p : Point} {qs : List Point} :
      p.move n = some (.chooses qs) → (∀ q ∈ qs, Settles n q) → Settles n p

/-- Follows every sequence of choices for so many moves. -/
def settles? (n : Nat) : Nat → Point → Bool
  | 0, _ => false
  | fuel + 1, p =>
    match p.move n with
    | none => false
    | some (.ends ..) => true
    | some (.goes q) => settles? n fuel q
    | some (.chooses qs) => qs.all fun q => settles? n fuel q

theorem settles_of_settles? {fuel : Nat} (h : settles? n fuel p = true) : Settles n p := by
  induction fuel generalizing p with
  | zero => cases h
  | succ fuel ih =>
    unfold settles? at h
    split at h
    · cases h
    · exact .ends ‹_›
    · exact .goes ‹_› (ih h)
    · exact .chooses ‹_› fun q hq => ih (List.all_eq_true.1 h q hq)

/-- A replay with its choices. -/
structure Result where
  choices : List Nat
  value : Value
  score : Float

/-- What an enumeration sees of a result. -/
def Result.printed (r : Result) : String × Float :=
  (r.value.text, r.score)

/-- The result with one choice more at its beginning. -/
def Result.after (i : Nat) (r : Result) : Result :=
  { r with choices := i :: r.choices }

mutual

/-- All replays from a point, in order, and a bound on the work they are. -/
inductive Unfolds (n : Nat) : Point → List Result → Nat → Prop
  | ends {p : Point} {v : Value} {s : Float} :
      p.move n = some (.ends v s) → Unfolds n p [⟨[], v, s⟩] 0
  | goes {p q : Point} {rs : List Result} {size : Nat} :
      p.move n = some (.goes q) → Unfolds n q rs size → Unfolds n p rs (size + 1)
  | chooses {p : Point} {qs : List Point} {rs : List Result} {size : Nat} :
      p.move n = some (.chooses qs) → Branches n 0 qs rs size → Unfolds n p rs (size + 1)

/-- All replays from several points, the first of which has the given place. -/
inductive Branches (n : Nat) : Nat → List Point → List Result → Nat → Prop
  | nil {i : Nat} : Branches n i [] [] 0
  | cons {i : Nat} {q : Point} {qs : List Point} {rs rs' : List Result} {size size' : Nat} :
      Unfolds n q rs size → Branches n (i + 1) qs rs' size' →
      Branches n i (q :: qs) (rs.map (.after i) ++ rs') (size + 1 + size')

end

theorem exists_branches {qs : List Point} (h : ∀ q ∈ qs, ∃ rs size, Unfolds n q rs size) (i : Nat) :
    ∃ rs size, Branches n i qs rs size := by
  induction qs generalizing i with
  | nil => exact ⟨[], 0, .nil⟩
  | cons q qs ih =>
    obtain ⟨hq, hqs⟩ := List.forall_mem_cons.1 h
    obtain ⟨rs, size, hq⟩ := hq
    obtain ⟨rs', size', hqs⟩ := ih hqs (i + 1)
    exact ⟨_, _, .cons hq hqs⟩

theorem Settles.unfolds (h : Settles n p) : ∃ rs size, Unfolds n p rs size := by
  induction h with
  | ends hp => exact ⟨_, _, .ends hp⟩
  | goes hp _ ih =>
    obtain ⟨rs, size, hq⟩ := ih
    exact ⟨rs, _, .goes hp hq⟩
  | chooses hp _ ih =>
    obtain ⟨rs, size, hqs⟩ := exists_branches ih 0
    exact ⟨rs, _, .chooses hp hqs⟩

mutual

theorem Unfolds.mem_iff {n : Nat} {r : Result} :
    ∀ {p : Point} {rs : List Result} {size : Nat}, Unfolds n p rs size →
      (r ∈ rs ↔ Replays n r.choices p r.value r.score)
  | p, _, _, .ends hp => by
    rw [List.mem_singleton]
    constructor
    · rintro rfl
      exact .ends hp
    · intro h
      obtain ⟨cs, v, s⟩ := r
      cases h with
      | ends hp' =>
        -- A point has one move, so every replay from here makes it.
        rw [hp] at hp'
        cases hp'
        rfl
      | goes hp' _ => rw [hp] at hp'; cases hp'
      | chooses hp' _ _ => rw [hp] at hp'; cases hp'
  | p, _, _, .goes hp hq => by
    rw [hq.mem_iff]
    constructor
    · exact .goes hp
    · intro h
      obtain ⟨cs, v, s⟩ := r
      cases h with
      | ends hp' => rw [hp] at hp'; cases hp'
      | goes hp' hq' =>
        rw [hp] at hp'
        cases hp'
        exact hq'
      | chooses hp' _ _ => rw [hp] at hp'; cases hp'
  | p, _, _, .chooses hp hqs => by
    rw [hqs.mem_iff]
    obtain ⟨cs, v, s⟩ := r
    constructor
    · rintro ⟨i, q, cs', hcs, hq, hreplay⟩
      rw [hcs, Nat.zero_add]
      exact .chooses hp hq hreplay
    · intro h
      cases h with
      | ends hp' => rw [hp] at hp'; cases hp'
      | goes hp' _ => rw [hp] at hp'; cases hp'
      | @chooses _ q _ i cs _ _ hp' hq hreplay =>
        rw [hp] at hp'
        cases hp'
        exact ⟨i, q, cs, by rw [Nat.zero_add], hq, hreplay⟩
termination_by structural _ _ _ h => h

theorem Branches.mem_iff {n : Nat} {r : Result} :
    ∀ {i : Nat} {qs : List Point} {rs : List Result} {size : Nat}, Branches n i qs rs size →
      (r ∈ rs ↔ ∃ j q cs, r.choices = (i + j) :: cs ∧ qs[j]? = some q ∧
        Replays n cs q r.value r.score)
  | i, _, _, _, .nil => by simp
  | i, q :: qs, _, _, .cons hq hqs => by
    rw [List.mem_append, List.mem_map, hqs.mem_iff]
    constructor
    · rintro (⟨r', hr', rfl⟩ | ⟨j, q', cs, hcs, hq', hreplay⟩)
      · exact ⟨0, q, r'.choices, rfl, rfl, hq.mem_iff.1 hr'⟩
      · refine ⟨j + 1, q', cs, ?_, hq', hreplay⟩
        rw [hcs, Nat.add_assoc, Nat.add_comm 1 j]
    · rintro ⟨j, q', cs, hcs, hq', hreplay⟩
      cases j with
      | zero =>
        cases hq'
        obtain ⟨choices, v, s⟩ := r
        cases hcs
        have hmem := (hq.mem_iff (r := ⟨cs, v, s⟩)).2 hreplay
        exact .inl ⟨_, hmem, rfl⟩
      | succ j =>
        refine .inr ⟨j, q', cs, ?_, hq', hreplay⟩
        rw [hcs, Nat.add_assoc, Nat.add_comm 1 j]
termination_by structural _ _ _ _ h => h

end

mutual

theorem Unfolds.nodup {n : Nat} :
    ∀ {p : Point} {rs : List Result} {size : Nat}, Unfolds n p rs size →
      (rs.map Result.choices).Nodup
  | _, _, _, .ends _ => List.nodup_singleton _
  | _, _, _, .goes _ hq => hq.nodup
  | _, _, _, .chooses _ hqs => hqs.nodup
termination_by structural _ _ _ h => h

theorem Branches.nodup {n : Nat} :
    ∀ {i : Nat} {qs : List Point} {rs : List Result} {size : Nat}, Branches n i qs rs size →
      (rs.map Result.choices).Nodup
  | _, _, _, _, .nil => List.nodup_nil
  | i, _ :: _, _, _, @Branches.cons _ _ _ _ rs rs' _ _ hq hqs => by
    have hfirst : (rs.map (Result.after i)).map Result.choices =
        (rs.map Result.choices).map (i :: ·) := by
      rw [List.map_map, List.map_map]
      rfl
    rw [List.map_append, hfirst]
    refine List.Nodup.append ?_ hqs.nodup ?_
    · exact hq.nodup.map (List.cons_injective)
    · -- Later branches begin with a greater place.
      intro cs hcs hcs'
      obtain ⟨cs₁, _, rfl⟩ := List.mem_map.1 hcs
      obtain ⟨r, hr, hchoices⟩ := List.mem_map.1 hcs'
      obtain ⟨j, _, cs₂, hr', _, _⟩ := hqs.mem_iff.1 hr
      rw [hr'] at hchoices
      injection hchoices with hplace
      omega
termination_by structural _ _ _ _ h => h

end

end Replay

end Chance
