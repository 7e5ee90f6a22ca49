import Mathlib.Data.List.Forall2
import Mathlib.Data.List.Perm.Basic
import Chance.Proofs.Enumeration.Replay
import Chance.Proofs.Machine.Over

/-!
# Enumerations explore all replays

While an enumeration goes on, the path that is being explored mirrors a point of a replay, and so
does each choice that was put off (`Explores`). Every step of the machine is a move of the replay:
the results counted and the results outstanding stay together the results of all replays, whatever
the strategy takes up next.
-/

namespace Chance

open Replay

/-! ## Frontiers as collections -/

variable {π : Pairing} {n next : Nat} {m : Machine}

namespace Frontier

variable {P : Entry → Prop} {e : Entry} {x : Frontier}

theorem insert_perm (e : Entry) (es : List Entry) : (insert e es).Perm (e :: es) := by
  induction es with
  | nil => exact .refl _
  | cons f fs ih =>
    simp only [insert]
    split_ifs
    · exact (ih.cons f).trans (.swap e f fs)
    · exact .refl _

theorem push_perm (e : Entry) (x : Frontier) : (x.push e).toList.Perm (e :: x.toList) := by
  cases x with
  | ranked es => exact insert_perm e es
  | stack es => exact .refl _
  | queue front back =>
    simp only [push, toList, List.reverse_cons, ← List.append_assoc]
    exact List.perm_append_singleton e (front ++ back.reverse)

theorem forall_mem_push (h : ∀ f ∈ x.toList, P f) (he : P e) : ∀ f ∈ (x.push e).toList, P f := by
  intro f hf
  rcases List.mem_cons.1 ((push_perm e x).mem_iff.1 hf) with rfl | hf
  · exact he
  · exact h f hf

theorem forall_mem_pushAll {entry : Value → Entry} {values : List Value} (h : ∀ f ∈ x.toList, P f)
    (hvalues : ∀ v ∈ values, P (entry v)) :
    ∀ f ∈ (values.foldl (fun x v => x.push (entry v)) x).toList, P f := by
  induction values generalizing x with
  | nil => exact h
  | cons v vs ih =>
    obtain ⟨hv, hvs⟩ := List.forall_mem_cons.1 hvalues
    exact ih (forall_mem_push h hv) hvs

theorem toList_of_pop? {y : Frontier} (h : x.pop? = some (e, y)) : x.toList = e :: y.toList := by
  cases x with
  | ranked es =>
    cases es with
    | nil => cases h
    | cons f fs =>
      cases h
      rfl
  | stack es =>
    cases es with
    | nil => cases h
    | cons f fs =>
      cases h
      rfl
  | queue front back =>
    cases front with
    | cons f fs =>
      cases h
      rfl
    | nil =>
      simp only [pop?] at h
      split at h
      · cases h
      · rename_i f fs hback
        cases h
        simp only [toList, hback, List.nil_append, List.reverse_nil, List.append_nil]

theorem toList_of_pop?_none (h : x.pop? = none) : x.toList = [] := by
  cases x with
  | ranked es =>
    cases es with
    | nil => rfl
    | cons f fs => cases h
  | stack es =>
    cases es with
    | nil => rfl
    | cons f fs => cases h
  | queue front back =>
    cases front with
    | cons f fs => cases h
    | nil =>
      simp only [pop?] at h
      split at h
      · rename_i hback
        simp only [toList, hback, List.nil_append]
      · cases h

theorem isEmpty_eq (x : Frontier) : x.isEmpty = x.toList.isEmpty := by
  cases x with
  | ranked es => rfl
  | stack es => rfl
  | queue front back =>
    cases front with
    | nil => simp [isEmpty, toList]
    | cons f fs => rfl

theorem toList_empty (s : Strategy) : (empty s).toList = [] := by
  cases s <;> rfl

end Frontier

/-! ## The enumeration on top -/

section OnTop

variable {e f : Engine} {outer : List Coroutine} {m : Machine}

theorem engine?_onTop (h : m.stack = .engine e :: outer) : m.engine? e.id = some e := by
  simp [Machine.engine?, h]

theorem putEngine_onTop (h : m.stack = .engine e :: outer) (hid : f.id = e.id)
    (hbelow : ∀ {g}, .engine g ∈ outer → g.id < e.id) :
    m.putEngine f = { m with stack := .engine f :: outer } := by
  have houter : outer.map (replaceEngine f) = outer :=
    map_replaceEngine_of_lt fun hg => hid ▸ hbelow hg
  rw [putEngine_eq, h, List.map_cons, houter]
  simp only [replaceEngine, hid, if_true]

theorem live_onTop (h : m.stack = .engine e :: outer) (hdone : e.done = false)
    (x : Engine → Exec Step) : (Engine.live e.id >>= x) m = x e m := by
  rw [Engine.live_bind, engine?_onTop h]
  exact if_neg (by rw [hdone]; exact Bool.false_ne_true)

theorem advance_onTop {x : Entry} {rest : Frontier} (h : m.stack = .engine e :: outer)
    (hbelow : ∀ {g}, .engine g ∈ outer → g.id < e.id) (hpop : e.frontier.pop? = some (x, rest)) :
    e.advance m = .ok (.resume x.k x.value)
      { m with
        stack := .engine { e with score := x.score, frontier := rest } :: outer
        store := x.store } := by
  have hput := putEngine_onTop (f := { e with score := x.score, frontier := rest }) h rfl hbelow
  unfold Engine.advance
  rw [hpop]
  change EStateM.Result.ok _ { m.putEngine { e with score := x.score, frontier := rest } with
    store := x.store } = _
  rw [hput]

theorem finish_onTop (h : m.stack = .engine e :: outer)
    (hbelow : ∀ {g}, .engine g ∈ outer → g.id < e.id) :
    e.finish m = match e.tally.marginal with
      | .error er => .error er m
      | .ok d => .ok (.resume e.k (.dist m.nextId d))
          { m with stack := outer, store := e.store, nextId := m.nextId + 1 } := by
  have hput := putEngine_onTop
    (f := { e with done := true, frontier := e.frontier.clear }) h rfl hbelow
  unfold Engine.finish
  cases e.tally.marginal with
  | error er => rfl
  | ok d =>
    change EStateM.Result.ok (Step.resume e.k (.dist (m.putEngine
        { e with done := true, frontier := e.frontier.clear }).nextId d))
      { ((m.putEngine { e with done := true, frontier := e.frontier.clear }).uninstall.2) with
        store := e.store
        nextId := (m.putEngine
          { e with done := true, frontier := e.frontier.clear }).nextId + 1 } = _
    rw [hput]
    rfl

end OnTop

/-! ## Replays beside the run -/

/-- Any function can occur. -/
def anyCode : Code := fun _ _ _ => True

mutual

theorem within_any : ∀ e : Expr, e.Within anyCode False
  | .array es => exprsWithin_any es
  | .object fs => fieldsWithin_any fs
  | .unary _ e => within_any e
  | .binary l r _ | .logic l r _ | .member l r => ⟨within_any l, within_any r⟩
  | .cond t c a => ⟨within_any t, within_any c, within_any a⟩
  | .call f es => ⟨False.elim, within_any f, exprsWithin_any es⟩
  | .func .. => trivial
  | .assign t v => ⟨False.elim, within_any t, within_any v⟩
  | .num _ | .str _ | .bool _ | .null | .undefined | .var _ => trivial

theorem exprsWithin_any : ∀ es : List Expr, ExprsWithin anyCode False es
  | [] => trivial
  | e :: es => ⟨within_any e, exprsWithin_any es⟩

theorem fieldsWithin_any : ∀ fs : List (String × Expr), FieldsWithin anyCode False fs
  | [] => trivial
  | (_, e) :: fs => ⟨within_any e, fieldsWithin_any fs⟩

end

theorem tailWithin_any : ∀ e : Expr, e.TailWithin anyCode False
  | .cond t c a => ⟨within_any t, tailWithin_any c, tailWithin_any a⟩
  | .call f es => ⟨False.elim, within_any f, exprsWithin_any es⟩
  | .num _ | .str _ | .bool _ | .null | .undefined | .var _ | .array _ | .object _ | .unary ..
  | .binary .. | .logic .. | .member .. | .func .. | .assign .. => ⟨id, within_any _⟩

theorem bodyWithin_any {name : Option String} {params : List String} {body : List Stmt}
    (_ : anyCode name params body) : BodyWithin anyCode False body :=
  ⟨fun e _ => tailWithin_any e, False.elim⟩

/-- A replay of the enumeration `n`, above nothing, beside the run, above the enumeration and the
coroutines below it. -/
def Setting.replay (n : Nat) (below : List Coroutine) (h : ∀ {e}, .engine e ∈ below → e.id ≤ n) :
    Setting where
  code := anyCode
  strict := False
  shared := False
  base := []
  base' := below
  floor := n + 1
  floor' := n + 1
  below := nofun
  below' := fun he => Nat.lt_succ_of_le (h he)
  alone := False.elim
  sound := bodyWithin_any

/-- The same pairing for a second run that has given out more identities. -/
def Pairing.raise (π : Pairing) (hπ : π.Bounded) (next : Nat) (h : π.right ≤ next) : Pairing where
  ids := π.ids
  left := π.left
  right := next
  unique := π.unique
  room := .inl fun hij => ⟨(hπ hij).1, Nat.lt_of_lt_of_le (hπ hij).2 h⟩

theorem Pairing.le_raise (hπ : π.Bounded) (h : π.right ≤ next) : π ≤ π.raise hπ next h where
  ids := id
  bounded := fun _ {_ _} hij => ⟨(hπ hij).1, Nat.lt_of_lt_of_le (hπ hij).2 h⟩
  left := Nat.le_refl _
  right := h

theorem Pairing.raise_bounded (hπ : π.Bounded) (h : π.right ≤ next) : (π.raise hπ next h).Bounded :=
  (Pairing.le_raise hπ h).bounded hπ

section Bare

variable {n : Nat} {below : List Coroutine} {h : ∀ {e}, .engine e ∈ below → e.id ≤ n}
  {π : Pairing} {m m' : Machine}

theorem alike_bare (hstack : m.stack = []) (hstack' : m'.stack = below)
    (hstore : List.Forall₂ (FieldLike (Value.Alike anyCode π)) m.store m'.store)
    (hleft : m.nextId = π.left) (hright : m'.nextId = π.right) (hfloor : n < m.nextId)
    (hfloor' : n < m'.nextId) : m.Alike (.replay n below h) π m' where
  store := hstore
  output := False.elim
  counters := ⟨hleft, hright⟩
  floor := hfloor
  floor' := hfloor'
  stack := ⟨[], [], hstack, hstack', .nil⟩
  tables := False.elim
  scripts := False.elim
  supply := False.elim

theorem stack_eq_of_bare (hm : m.Alike (.replay n below h) π m') (hstack : m.stack = []) :
    m'.stack = below := by
  obtain ⟨cs, ds, hcs, hds, hs⟩ := hm.stack
  rw [hstack] at hcs
  obtain ⟨rfl, -⟩ := List.append_eq_nil_iff.1 hcs.symm
  cases hs
  exact hds

end Bare

/-! ## Requests on top -/

section Requests

variable {e : Engine} {outer : List Coroutine} {m : Machine} {args values : List Value}
  {k : Value} {a : String} {d : Dist}

theorem perform_sample (hhead : m.stack.head? = some (.engine e))
    (hcaller : callerOf args = .ok (k, a)) (hd : (argument args 2).toDist = .ok d)
    (hvalues : enumerable d = .ok values) :
    (Task.call (.builtin .sample) args).perform m =
      (e.postpone k d m.store values).advance (m.putEngine (e.postpone k d m.store values)) := by
  have hsample : (Task.call (.builtin .sample) args).perform m =
      sampleAt k a d (argument args 3) m := by
    change ((liftM (callerOf args) : Exec _) >>= fun x =>
      (liftM (argument args 2).toDist : Exec _) >>= fun d =>
        sampleAt x.1 x.2 d (argument args 3)) m = _
    rw [hcaller, hd]
    rfl
  have htop : sampleAt k a d (argument args 3) m = e.sample k d m := by
    rw [sampleAt, currentCoroutine_bind, hhead]
  rw [hsample, htop]
  change ((liftM (enumerable d) : Exec _) >>= fun values => fun m =>
    (e.postpone k d m.store values).advance (m.putEngine (e.postpone k d m.store values))) m = _
  rw [hvalues]
  rfl

theorem sample_onTop (h : m.stack = .engine e :: outer)
    (hbelow : ∀ {g}, .engine g ∈ outer → g.id < e.id) (hcaller : callerOf args = .ok (k, a))
    (hd : (argument args 2).toDist = .ok d) (hvalues : enumerable d = .ok values) :
    (Task.call (.builtin .sample) args).perform m =
      (e.postpone k d m.store values).advance
        { m with stack := .engine (e.postpone k d m.store values) :: outer } := by
  rw [perform_sample (List.head?_eq_some_iff.2 ⟨outer, h⟩) hcaller hd hvalues,
    putEngine_onTop (f := e.postpone k d m.store values) h rfl hbelow]

/-- The enumeration after the result of its path is counted. -/
def Engine.counting (e : Engine) (v : Value) : Engine :=
  { e with tally := e.tally.add v e.score, completed := e.completed + 1 }

theorem leave_onTop (h : m.stack = .engine e :: outer)
    (hbelow : ∀ {g}, .engine g ∈ outer → g.id < e.id) (hlimit : e.limit = none) (v : Value) :
    e.leave v m =
      (if e.frontier.isEmpty then (e.counting v).finish else (e.counting v).advance)
        { m with stack := .engine (e.counting v) :: outer } := by
  have hput := putEngine_onTop (f := e.counting v) h rfl hbelow
  have hwithin : (e.counting v).withinLimit = true := by
    simp only [Engine.withinLimit, Engine.counting, hlimit]
  rw [← hput]
  change (if (e.counting v).withinLimit && !e.frontier.isEmpty then (e.counting v).advance
    else (e.counting v).finish) (m.putEngine (e.counting v)) = _
  rw [hwithin]
  cases e.frontier.isEmpty <;> rfl

theorem return_onTop (h : m.stack = .engine e :: outer) (hdone : e.done = false) (j : Nat) :
    (Task.call (.cont j (.leave e.id)) args).perform m = e.leave (argument args 0) m :=
  live_onTop h hdone fun e => e.leave (argument args 0)

/-- The enumeration after a factor. -/
def Engine.weighing (e : Engine) (x : Float) : Engine :=
  { e with score := e.score + x }

theorem factorAt_eq_factor {x : Float} (h : m.stack.head? = some (.engine e)) :
    factorAt k a x m = e.factor k x m := by
  unfold factorAt
  rw [currentCoroutine_bind, h]

theorem factorAt_onTop {x : Float} (h : m.stack = .engine e :: outer)
    (hbelow : ∀ {g}, .engine g ∈ outer → g.id < e.id) :
    factorAt k a x m =
      (if e.score + x == Number.negInfinity then (e.weighing x).leave .undefined
        else pure (.resume k .undefined))
        { m with stack := .engine (e.weighing x) :: outer } := by
  rw [factorAt_eq_factor (List.head?_eq_some_iff.2 ⟨outer, h⟩),
    ← putEngine_onTop (f := e.weighing x) h rfl hbelow]
  rfl

theorem factor_onTop {x : Float} (h : m.stack = .engine e :: outer)
    (hbelow : ∀ {g}, .engine g ∈ outer → g.id < e.id) (hcaller : callerOf args = .ok (k, a))
    (hx : numberArgument args 2 = .ok x) :
    (Task.call (.builtin .factor) args).perform m =
      (if e.score + x == Number.negInfinity then (e.weighing x).leave .undefined
        else pure (.resume k .undefined))
        { m with stack := .engine (e.weighing x) :: outer } := by
  have hfactor : (Task.call (.builtin .factor) args).perform m = factorAt k a x m := by
    change ((liftM (callerOf args) : Exec _) >>= fun y =>
      (liftM (numberArgument args 2) : Exec _) >>= fun x => factorAt y.1 y.2 x) m = _
    rw [hcaller, hx]
    rfl
  exact hfactor.trans (factorAt_onTop h hbelow)

end Requests

/-! ## Results handed over -/

/-- What a factor hands to the tally of the enumeration `n`: the path ends if nothing is left of
it. -/
def handedAtFactor (n : Nat) (m : Machine) (x : Except Error Float) : Option (Value × Float) :=
  match m.stack.head?, x with
  | some (.engine e), .ok x =>
    if e.id = n ∧ (e.score + x == Number.negInfinity) = true then some (.undefined, e.score + x)
    else none
  | _, _ => none

/-- The result that a task hands to the tally of the enumeration `n`, if it ends one of its
paths. -/
def Task.hands (n : Nat) (t : Task) (m : Machine) : Option (Value × Float) :=
  match t with
  | .call (.cont _ (.leave i)) args =>
    if i = n then (m.engine? n).map fun e => (argument args 0, e.score) else none
  | .call (.builtin .factor) args => handedAtFactor n m (numberArgument args 2)
  | .call (.cont _ (.scored ..)) args => handedAtFactor n m (argument args 0).toNumber
  | _ => none

theorem handedAtFactor_onTop {e : Engine} {outer : List Coroutine} {x : Float}
    (h : m.stack = .engine e :: outer) : handedAtFactor e.id m (.ok x) =
      if e.score + x == Number.negInfinity then some (.undefined, e.score + x) else none := by
  simp only [handedAtFactor, h, List.head?_cons, true_and]

theorem handedAtFactor_of_other {x : Except Error Float}
    (h : ∀ e, m.stack.head? = some (.engine e) → e.id ≠ n) : handedAtFactor n m x = none := by
  unfold handedAtFactor
  split
  · rename_i e x htop
    exact if_neg fun hzero => h e htop hzero.1
  · rfl

theorem hands_ordinary {below : List Coroutine} {h : ∀ {e}, .engine e ∈ below → e.id ≤ n}
    {t t' : Task} {m' : Machine} (hown : π.ids n n) (ht : t.Alike (.replay n below h) π t')
    (hm : m.Alike (.replay n below h) π m') (hplain : t.Plain) (hasks : t.Asks → m.stack ≠ [])
    (hleft : ∀ i, t.left? = some i → n < i) : t'.hands n m' = none := by
  cases ht with
  | call hf hargs =>
    cases hf with
    | @cont _ _ _ _ _ hc =>
      cases hc with
      | @leave i i' hii' =>
        have hlt := hleft i rfl
        refine if_neg fun heq => ?_
        rw [heq] at hii'
        have := (π.unique hii' hown).2 rfl
        omega
      | scored => exact hplain.elim
      | _ => rfl
    | builtin b =>
      cases b with
      | factor =>
        -- An enumeration on top of the replay is none of those the run has below it.
        refine handedAtFactor_of_other fun f htop => ?_
        obtain ⟨cs, ds, hcs, hds, hs⟩ := hm.stack
        rw [hds] at htop
        cases hs with
        | nil => exact absurd hcs (hasks (.inr rfl))
        | cons hc _ =>
          cases htop
          cases hc with
          | engine hef =>
            have hfloor : n + 1 ≤ f.id := hef.floor'
            omega
      | _ => rfl
    | _ => rfl
  | _ => rfl

/-! ## The invariant -/

/-- The choice that was put off stands for the point of a replay, by the given pairing. -/
structure AwaitsBy (n next : Nat) (x : Entry) (p : Point) (π : Pairing) (k v : Value) : Prop where
  bounded : π.Bounded
  own : π.ids n n
  left : p.machine.nextId = π.left
  right : π.right ≤ next
  floor : n < p.machine.nextId
  bare : p.machine.stack = []
  task : p.task = .call k [v]
  k : k.Alike anyCode π x.k
  value : v.Alike anyCode π x.value
  store : List.Forall₂ (FieldLike (Value.Alike anyCode π)) p.machine.store x.store
  score : x.score = p.score

/-- A point whose replays are outstanding. -/
structure Pending where
  point : Point
  results : List Result
  size : Nat

/-- The choice that was put off stands for a point with the given replays. -/
def Waits (n next : Nat) (x : Entry) (w : Pending) : Prop :=
  (∃ π k v, AwaitsBy n next x w.point π k v) ∧ Unfolds n w.point w.results w.size

theorem Waits.mono {next' : Nat} {x : Entry} {w : Pending} (hnext : next ≤ next')
    (h : Waits n next x w) : Waits n next' x w := by
  obtain ⟨⟨π, k, v, hx⟩, hw⟩ := h
  exact ⟨⟨π, k, v, { hx with right := Nat.le_trans hx.right hnext }⟩, hw⟩

/-- The enumeration `n` goes on, above the coroutines `outer`, and the choices it has put off stand
for the points `ws`. -/
structure Underway (n next : Nat) (outer : List Coroutine) (e : Engine) (ws : List Pending) :
    Prop where
  id : e.id = n
  going : e.done = false
  unlimited : e.limit = none
  outer : ∀ {f}, .engine f ∈ outer → f.id < n
  frontier : List.Forall₂ (Waits n next) e.frontier.toList ws

/-- The task and the state mirror the point of a replay. -/
def Mirrors (n : Nat) (stack : List Coroutine) (p : Point) (t : Task) (m : Machine) : Prop :=
  ∃ (h : ∀ {f}, .engine f ∈ stack → f.id ≤ n) (π : Pairing), π.Bounded ∧ π.ids n n ∧
    p.task.Alike (.replay n stack h) π t ∧ p.machine.Alike (.replay n stack h) π m

/-- The enumeration explores the path at the point `p`. -/
structure Explores (n : Nat) (outer : List Coroutine) (e : Engine) (t : Task) (m : Machine)
    (p : Point) (ws : List Pending) : Prop where
  underway : Underway n m.nextId outer e ws
  score : e.score = p.score
  mirrors : Mirrors n (.engine e :: outer) p t m

section Steps

variable {n : Nat} {outer : List Coroutine} {e : Engine} {t : Task} {m : Machine} {p : Point}
  {ws bs : List Pending} {k v : Value} {s : Float} {f : Frontier} {values : List Value}

theorem Underway.below (h : Underway n m.nextId outer e ws) :
    ∀ {f}, .engine f ∈ .engine e :: outer → f.id ≤ n := by
  intro f hf
  rcases List.mem_cons.1 hf with hf | hf
  · cases hf
    exact Nat.le_of_eq h.id
  · exact Nat.le_of_lt (h.outer hf)

theorem Underway.outer_lt (h : Underway n m.nextId outer e ws) :
    ∀ {f}, .engine f ∈ outer → f.id < e.id :=
  fun hf => h.id ▸ h.outer hf

theorem Underway.advance (h : Underway n m.nextId outer e ws)
    (hstack : m.stack = .engine e :: outer) (hfloor : n < m.nextId) (hws : ws ≠ []) :
    ∃ w ws' t m' e', ws = w :: ws' ∧ e.advance m = .ok (.bounce t) m' ∧
      Explores n outer e' t m' w.point ws' ∧ Unfolds n w.point w.results w.size ∧
      e'.tally = e.tally ∧ e'.k = e.k ∧ e'.store = e.store := by
  cases hpop : e.frontier.pop? with
  | none =>
    have hfrontier := h.frontier
    rw [Frontier.toList_of_pop?_none hpop] at hfrontier
    cases hfrontier
    exact absurd rfl hws
  | some xy =>
    obtain ⟨x, rest⟩ := xy
    have hfrontier := h.frontier
    rw [Frontier.toList_of_pop? hpop] at hfrontier
    cases hfrontier with
    | @cons _ w _ ws' hw hrest =>
      obtain ⟨⟨π, k, v, hx⟩, hunfolds⟩ := hw
      refine ⟨w, ws', _, _, { e with score := x.score, frontier := rest }, rfl,
        advance_onTop hstack h.outer_lt hpop, ?_, hunfolds, rfl, rfl, rfl⟩
      have hunder : Underway n m.nextId outer { e with score := x.score, frontier := rest } ws' :=
        { h with frontier := hrest }
      have hle := Pairing.le_raise hx.bounded hx.right
      refine ⟨hunder, hx.score, hunder.below, π.raise hx.bounded _ hx.right,
        Pairing.raise_bounded hx.bounded hx.right, hx.own, ?_, ?_⟩
      · rw [hx.task]
        exact .call (hx.k.mono hle) (.cons (hx.value.mono hle) .nil)
      · exact alike_bare hx.bare rfl (fieldsAlike_mono hle hx.store) hx.left rfl hx.floor hfloor

theorem Explores.stack_eq (h : Explores n outer e t m p ws) (hbare : p.machine.stack = []) :
    m.stack = .engine e :: outer := by
  obtain ⟨hbelow, π, -, -, -, hm⟩ := h.mirrors
  exact stack_eq_of_bare hm hbare

theorem Explores.floor_lt (h : Explores n outer e t m p ws) : n < m.nextId := by
  obtain ⟨hbelow, π, -, -, -, hm⟩ := h.mirrors
  exact hm.floor'

/-- The replay goes on in the state it is in, the run in its own with the enumeration changed. -/
theorem mirrors_bare {stack stack' : List Coroutine}
    {hbelow : ∀ {f}, .engine f ∈ stack → f.id ≤ n} (hπ : π.Bounded) (hown : π.ids n n)
    (hbare : p.machine.stack = []) (hm : p.machine.Alike (.replay n stack hbelow) π m)
    (hbelow' : ∀ {f}, .engine f ∈ stack' → f.id ≤ n) {k' v' : Value} (hk : k.Alike anyCode π k')
    (hv : v.Alike anyCode π v') :
    Mirrors n stack' ⟨.call k [v], p.machine, s⟩ (.call k' [v']) { m with stack := stack' } :=
  ⟨hbelow', π, hπ, hown, .call hk (.cons hv .nil),
    alike_bare hbare rfl hm.store hm.left hm.right hm.floor hm.floor'⟩

theorem callerOf_ok_alike {args args' : List Value} {a : String}
    (hargs : List.Forall₂ (Value.Alike anyCode π) args args') (h : callerOf args = .ok (k, a)) :
    ∃ k', callerOf args' = .ok (k', a) ∧ k.Alike anyCode π k' := by
  have L := alike_likeness anyCode π
  obtain ⟨a₁, ha, hrest⟩ := exists_ok_of_bind h
  cases hrest
  have htracks := L.toAddress (L.argument hargs 1)
  rw [ha] at htracks
  obtain ⟨_, ha', rfl⟩ := htracks
  refine ⟨argument args' 0, ?_, L.argument hargs 0⟩
  rw [callerOf, ha']
  rfl

theorem Explores.goes (h : Explores n outer e t m p ws) {q : Point} (hq : Moves n p (.goes q)) :
    t.hands n m = none ∧
    ∃ s t' m' e', t.perform m = .ok s m' ∧ s.task? = some t' ∧ Explores n outer e' t' m' q ws ∧
      e'.tally = e.tally ∧ e'.k = e.k ∧ e'.store = e.store := by
  obtain ⟨hbelow, π, hπ, hown, ht, hm⟩ := h.mirrors
  cases hq with
  | @ordinary s u m₁ hplain hasks hleft hperform hs =>
    have hordinary : Ordinary (.replay n (.engine e :: outer) hbelow) p.machine p.task :=
      { plain := .inr hplain
        answered := fun hask => .inr (List.length_pos_of_ne_nil (hasks hask))
        inner := hleft }
    -- Such a step does not reach the enumeration: run and replay take it side by side.
    have hbeside := Task.perform_beside ht hm hordinary
    unfold Beside at hbeside
    rw [hperform] at hbeside
    obtain ⟨ρ, hρ, s', m', hperform', hss', hm'⟩ := hbeside
    have hnext : m.nextId ≤ m'.nextId := by
      rw [hm.right, hm'.right]
      exact hρ.right
    have hunder : Underway n m'.nextId outer e ws :=
      { h.underway with frontier := h.underway.frontier.imp fun _ _ hw => hw.mono hnext }
    obtain ⟨u', hu', huu'⟩ : ∃ u', s'.task? = some u' ∧
        u.Alike (.replay n (.engine e :: outer) hbelow) ρ u' := by
      rcases hs with rfl | rfl
      · cases hss' with
        | bounce huu' => exact ⟨_, rfl, huu'⟩
      · cases hss' with
        | through huu' => exact ⟨_, rfl, huu'⟩
    refine ⟨hands_ordinary hown ht hm hplain hasks hleft, ?_⟩
    exact ⟨s', u', m', e, hperform', hu', ⟨hunder, h.score, hbelow, ρ, hρ.bounded hπ, hρ.ids hown,
      huu', hm'⟩, rfl, rfl, rfl⟩
  | @weighed args k a x hbare htask hcaller hx hlive =>
    -- A factor is added to the score of the path on both sides.
    have hstack := h.stack_eq hbare
    rw [htask] at ht
    cases ht with
    | @call _ f _ args' hf hargs =>
      cases hf
      obtain ⟨k', hcaller', hk⟩ := callerOf_ok_alike hargs hcaller
      have htracks := (alike_likeness anyCode π).numberArgument hargs 2
      rw [hx] at htracks
      obtain ⟨_, hx', rfl⟩ := htracks
      have hperform := factor_onTop hstack h.underway.outer_lt hcaller' hx'
      rw [h.score, hlive] at hperform
      have hunder : Underway n m.nextId outer (e.weighing x) ws := { h.underway with }
      refine ⟨?_, _, _, _, e.weighing x, hperform, rfl, ⟨hunder, ?_, ?_⟩, rfl, rfl, rfl⟩
      · rw [Task.hands, hx', ← h.underway.id, handedAtFactor_onTop hstack, h.score, hlive]
        rfl
      · rw [Engine.weighing, h.score]
      · exact mirrors_bare hπ hown hbare hm hunder.below hk .undefined

theorem push_waits {x : Entry} {w : Pending} (hf : List.Forall₂ (Waits n next) f.toList ws)
    (hx : Waits n next x w) :
    ∃ ws', List.Forall₂ (Waits n next) (f.push x).toList ws' ∧ ws'.Perm (w :: ws) :=
  List.perm_comp_forall₂ (Frontier.push_perm x f) (.cons hx hf)

theorem foldl_push_waits {entry : Value → Entry}
    (h : List.Forall₂ (fun v w => Waits n next (entry v) w) values bs)
    (hf : List.Forall₂ (Waits n next) f.toList ws) :
    ∃ ws', List.Forall₂ (Waits n next) (values.foldl (fun f v => f.push (entry v)) f).toList ws' ∧
      ws'.Perm (bs ++ ws) := by
  induction h generalizing f ws with
  | nil => exact ⟨ws, hf, .refl _⟩
  | cons hx _ ih =>
    obtain ⟨ws₁, hf₁, hperm₁⟩ := push_waits hf hx
    obtain ⟨ws₂, hf₂, hperm₂⟩ := ih hf₁
    refine ⟨ws₂, hf₂, hperm₂.trans ((hperm₁.append_left _).trans ?_)⟩
    exact List.perm_middle

theorem enumerable_ne_nil {d : Dist} (h : enumerable d = .ok values) : values ≠ [] := by
  unfold enumerable at h
  split at h
  · cases h
  · cases h
  · rename_i hne _
    cases h
    exact hne

theorem Explores.chooses (h : Explores n outer e t m p ws)
    (hmove : Moves n p (.chooses (bs.map Pending.point)))
    (hbs : ∀ w ∈ bs, Unfolds n w.point w.results w.size) : t.hands n m = none ∧
    ∃ s t' m' e' w ws', t.perform m = .ok s m' ∧ s.task? = some t' ∧
      (w :: ws').Perm (bs ++ ws) ∧ Explores n outer e' t' m' w.point ws' ∧
      Unfolds n w.point w.results w.size ∧
      e'.tally = e.tally ∧ e'.k = e.k ∧ e'.store = e.store := by
  obtain ⟨hbelow, π, hπ, hown, ht, hm⟩ := h.mirrors
  generalize hqs : bs.map Pending.point = qs at hmove
  cases hmove with
  | @chosen args k a d values hbare htask hcaller hd hvalues =>
    have hstack := h.stack_eq hbare
    have L := alike_likeness anyCode π
    rw [htask] at ht
    cases ht with
    | @call _ f _ args' hf hargs =>
      cases hf
      obtain ⟨k', hcaller', hk⟩ := callerOf_ok_alike hargs hcaller
      have htracks := L.toDist (L.argument hargs 2)
      rw [hd] at htracks
      obtain ⟨d', hd', hdd'⟩ := htracks
      have htracks := (L.semblance.enumerable (L.distAlike hdd')).tracks
      rw [hvalues] at htracks
      obtain ⟨values', hvalues', hvv'⟩ := htracks
      have hperform := sample_onTop hstack h.underway.outer_lt hcaller' hd' hvalues'
      have hentry {v v' : Value} {w : Pending} (hv : v.Alike anyCode π v')
          (hpoint : w.point = ⟨.call k [v], p.machine, p.score + d.score v⟩)
          (hw : Unfolds n w.point w.results w.size) :
          Waits n m.nextId ⟨k', v', e.score + d'.score v', m.store⟩ w := by
        refine ⟨⟨π, k, v, ?_⟩, hw⟩
        rw [hpoint]
        exact
          { bounded := hπ
            own := hown
            left := hm.left
            right := Nat.le_of_eq hm.right.symm
            floor := hm.floor
            bare := hbare
            task := rfl
            k := hk
            value := hv
            store := hm.store
            score := by rw [h.score, L.score_eq hdd' hv] }
      -- Each value of the support waits in the frontier for its branch of the replay.
      have hentries : List.Forall₂
          (fun v w => Waits n m.nextId ⟨k', v, e.score + d'.score v, m.store⟩ w) values' bs := by
        clear hvalues hvalues' hperform
        induction hvv' generalizing bs with
        | nil =>
          cases List.map_eq_nil_iff.1 hqs
          exact .nil
        | cons hv _ ih =>
          cases bs with
          | nil => cases hqs
          | cons w bs =>
            injection hqs with hpoint hqs
            obtain ⟨hw, hbs⟩ := List.forall_mem_cons.1 hbs
            exact .cons (hentry hv.1 hpoint hw) (ih hbs hqs)
      obtain ⟨ws₁, hfrontier, hperm⟩ := foldl_push_waits hentries h.underway.frontier
      have hunder : Underway n m.nextId outer (e.postpone k' d' m.store values') ws₁ :=
        { h.underway with frontier := hfrontier }
      have hne : ws₁ ≠ [] := by
        rintro rfl
        have hnil := List.append_eq_nil_iff.1 (List.nil_perm.1 hperm)
        rw [hnil.1] at hqs
        exact enumerable_ne_nil hvalues (List.map_eq_nil_iff.1 hqs.symm)
      -- The strategy decides which of all that wait is taken up; the invariant holds for any.
      obtain ⟨w, ws', t', m', e', rfl, hadvance, hexplores, hw, htally, hk', hstore'⟩ :=
        hunder.advance
          (m := { m with stack := .engine (e.postpone k' d' m.store values') :: outer })
          rfl h.floor_lt hne
      exact ⟨rfl, _, t', m', e', w, ws', hperform.trans hadvance, rfl, hperm, hexplores, hw, htally,
        hk', hstore'⟩

/-- The enumeration is over: the task ends it with the given tally. -/
def Finishes (outer : List Coroutine) (e : Engine) (t : Task) (m : Machine) (tally : Tally) :
    Prop :=
  ∃ e' m', t.perform m = e'.finish m' ∧ m'.stack = .engine e' :: outer ∧
    (∀ {f}, .engine f ∈ outer → f.id < e'.id) ∧ e'.tally = tally ∧ e'.k = e.k ∧
    e'.store = e.store

theorem Underway.leave (h : Underway n m.nextId outer e ws)
    (hstack : m.stack = .engine e :: outer) (hfloor : n < m.nextId) (v : Value) :
    (ws = [] ∧ e.leave v m =
      (e.counting v).finish { m with stack := .engine (e.counting v) :: outer }) ∨
    ∃ w ws' t m' e', ws = w :: ws' ∧ e.leave v m = .ok (.bounce t) m' ∧
      Explores n outer e' t m' w.point ws' ∧ Unfolds n w.point w.results w.size ∧
      e'.tally = e.tally.add v e.score ∧ e'.k = e.k ∧ e'.store = e.store := by
  have hleave := leave_onTop hstack h.outer_lt h.unlimited v
  have hempty : e.frontier.isEmpty = ws.isEmpty := by
    have hfrontier := h.frontier
    rw [Frontier.isEmpty_eq]
    generalize e.frontier.toList = xs at hfrontier ⊢
    cases hfrontier <;> rfl
  have hunder : Underway n m.nextId outer (e.counting v) ws := { h with }
  rw [hempty] at hleave
  cases ws with
  | nil => exact .inl ⟨rfl, hleave⟩
  | cons w ws =>
    obtain ⟨w', ws', t, m', e', hws, hadvance, hexplores, hw, htally, hk, hstore⟩ :=
      hunder.advance (m := { m with stack := .engine (e.counting v) :: outer }) rfl hfloor
        (List.cons_ne_nil w ws)
    exact .inr ⟨w', ws', t, m', e', hws, hleave.trans hadvance, hexplores, hw, htally, hk, hstore⟩

/-- The end of a replay is counted in the run, under the same text and with the same score. -/
theorem Explores.ends (h : Explores n outer e t m p ws) (hmove : Moves n p (.ends v s)) :
    ∃ v', v'.text = v.text ∧ t.hands n m = some (v', s) ∧
      (ws = [] ∧ Finishes outer e t m (e.tally.add v' s) ∨
      ∃ w ws' t' m' e', ws = w :: ws' ∧ t.perform m = .ok (.bounce t') m' ∧
        Explores n outer e' t' m' w.point ws' ∧ Unfolds n w.point w.results w.size ∧
        e'.tally = e.tally.add v' s ∧ e'.k = e.k ∧ e'.store = e.store) := by
  obtain ⟨hbelow, π, hπ, hown, ht, hm⟩ := h.mirrors
  cases hmove with
  | @returned i args hbare htask =>
    have hstack := h.stack_eq hbare
    rw [htask] at ht
    cases ht with
    | @call _ f _ args' hf hargs =>
      cases hf with
      | @cont _ j _ _ hids hc =>
        cases hc with
        | @leave _ n' hids' =>
          -- Identities match one to one, so the enumeration that is left is this one.
          obtain rfl : n' = e.id := by
            rw [h.underway.id]
            exact (π.unique hown hids').1 rfl |>.symm
          have hv := (alike_likeness anyCode π).argument hargs 0
          have hperform : (Task.call (.cont j (.leave e.id)) args').perform m =
              e.leave (argument args' 0) m := return_onTop hstack h.underway.going j
          refine ⟨argument args' 0, ((alike_likeness anyCode π).text_eq _ _ hv).symm, ?_, ?_⟩
          · rw [Task.hands, h.underway.id, if_pos rfl, ← h.underway.id, engine?_onTop hstack,
              Option.map_some, h.score]
          rw [hperform, ← h.score]
          rcases h.underway.leave hstack h.floor_lt (argument args' 0) with ⟨hws, hleave⟩ | hnext
          · exact .inl ⟨hws, _, _, hperform.trans hleave, rfl, h.underway.outer_lt, rfl, rfl, rfl⟩
          · exact .inr hnext
  | @stopped args k a x hbare htask hcaller hx hzero =>
    have hstack := h.stack_eq hbare
    rw [htask] at ht
    cases ht with
    | @call _ f _ args' hf hargs =>
      cases hf
      obtain ⟨k', hcaller', hk⟩ := callerOf_ok_alike hargs hcaller
      have htracks := (alike_likeness anyCode π).numberArgument hargs 2
      rw [hx] at htracks
      obtain ⟨_, hx', rfl⟩ := htracks
      have hperform := factor_onTop hstack h.underway.outer_lt hcaller' hx'
      rw [h.score, hzero, if_pos rfl] at hperform
      -- A path that has lost all probability ends here with `undefined`.
      have hunder : Underway n m.nextId outer (e.weighing x) ws := { h.underway with }
      refine ⟨.undefined, rfl, ?_, ?_⟩
      · rw [Task.hands, hx', ← h.underway.id, handedAtFactor_onTop hstack, h.score, hzero]
        rfl
      rw [hperform, ← h.score]
      rcases hunder.leave (m := { m with stack := .engine (e.weighing x) :: outer }) rfl h.floor_lt
        .undefined with ⟨hws, hleave⟩ | hnext
      · exact .inl ⟨hws, _, _, hperform.trans hleave, rfl, h.underway.outer_lt, rfl, rfl, rfl⟩
      · exact .inr hnext

end Steps

end Chance
