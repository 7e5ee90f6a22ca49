import Chance.Proofs.Machine.Over

/-!
# Properties that data inherit

A property of values is inherited if data have it exactly if their parts have it. A value with such
a property is like itself, so that whatever is computed in place of values with the property has it
too. Evaluation adds nothing but functions of the program and what names stand for.

- `Inherited`: such a property, which is a likeness of values with themselves
  (`Inherited.likeness`),
- `Exec.Preserves`: computations that leave all but the store and the output alone,
- `Inherited.eval`: evaluation in place.
-/

namespace Chance

variable {P : Value → Prop} {v : Value} {t : Tally} {d : Dist} {m : Machine}

/-- A property of values that data inherit from their parts. -/
structure Inherited (P : Value → Prop) : Prop where
  undefined : P .undefined
  null : P .null
  bool : ∀ b, P (.bool b)
  num : ∀ x, P (.num x)
  str : ∀ s, P (.str s)
  primitive : ∀ p, P (.primitive p)
  builtin : ∀ b, P (.builtin b)
  array : ∀ {vs}, P (.array vs) ↔ ∀ v ∈ vs, P v
  object : ∀ {fs}, P (.object fs) ↔ ∀ f ∈ fs, P f.2
  dist : ∀ {i d}, P (.dist i d) ↔ ∀ v ∈ d.values, P v

/-- A value with the property, beside itself. -/
def Itself (P : Value → Prop) (v w : Value) : Prop :=
  v = w ∧ P v

section Itself

variable {P : Value → Prop}

theorem forall₂_itself {vs ws : List Value} :
    List.Forall₂ (Itself P) vs ws ↔ vs = ws ∧ ∀ v ∈ vs, P v := by
  constructor
  · intro h
    induction h with
    | nil => exact ⟨rfl, List.forall_mem_nil _⟩
    | cons hv _ ih => exact ⟨by rw [hv.1, ih.1], List.forall_mem_cons.2 ⟨hv.2, ih.2⟩⟩
  · rintro ⟨rfl, h⟩
    exact List.forall₂_same.2 fun v hv => ⟨rfl, h v hv⟩

theorem forall₂_fieldItself {fs gs : List (String × Value)} :
    List.Forall₂ (FieldLike (Itself P)) fs gs ↔ fs = gs ∧ ∀ f ∈ fs, P f.2 := by
  constructor
  · intro h
    induction h with
    | nil => exact ⟨rfl, List.forall_mem_nil _⟩
    | cons hf _ ih =>
      obtain ⟨rfl, hv⟩ := hf
      exact ⟨by rw [ih.1], List.forall_mem_cons.2 ⟨hv, ih.2⟩⟩
  · rintro ⟨rfl, h⟩
    exact List.forall₂_same.2 fun f hf => ⟨rfl, h f hf⟩

theorem distLike_itself (h : ∀ v ∈ d.values, P v) : DistLike (Itself P) d d :=
  distLike_same fun v hv => ⟨rfl, h v hv⟩

theorem forall_values_of_distLike {e : Dist} (h : DistLike (Itself P) d e) :
    ∀ v ∈ d.values, P v := by
  cases h with
  | categorical _ hs => exact (forall₂_itself.1 hs).2
  | delta hv => exact List.forall_mem_singleton.2 hv.2
  | marginal hs =>
    refine List.forall_mem_map.2 (forall_of_forall₂ hs ?_)
    rintro _ _ ⟨hv⟩
    exact hv.2
  | _ => exact List.forall_mem_nil _

theorem Tracks.holds {α : Type} {Q : α → α → Prop} {x y : Except Error α} {a : α} {p : Prop}
    (h : Tracks Q x y) (hx : x = .ok a) (hQ : ∀ b, Q a b → p) : p := by
  subst hx
  obtain ⟨b, _, hab⟩ := h
  exact hQ b hab

end Itself

namespace Inherited

variable {P : Value → Prop} (H : Inherited P) {vs : List Value}
include H

/-- Values with the property are like themselves. -/
theorem likeness : Likeness (Itself P) where
  layer := by
    rintro v _ ⟨rfl, h⟩
    cases v with
    | undefined => exact .undefined
    | null => exact .null
    | bool b => exact .bool b
    | num x => exact .num x
    | str s => exact .str s
    | array vs => exact .array (forall₂_itself.2 ⟨rfl, H.array.1 h⟩)
    | object fs => exact .object (forall₂_fieldItself.2 ⟨rfl, H.object.1 h⟩)
    | closure => exact .closure
    | primitive p => exact .primitive p
    | builtin b => exact .builtin b
    | cached => exact .cached
    | cont => exact .cont rfl
    | dist i d => exact .dist (distLike_itself (H.dist.1 h))
  data := by
    intro v w h hid
    cases h with
    | undefined => exact ⟨rfl, H.undefined⟩
    | null => exact ⟨rfl, H.null⟩
    | bool b => exact ⟨rfl, H.bool b⟩
    | num x => exact ⟨rfl, H.num x⟩
    | str s => exact ⟨rfl, H.str s⟩
    | array hs =>
      obtain ⟨rfl, h⟩ := forall₂_itself.1 hs
      exact ⟨rfl, H.array.2 h⟩
    | object hs =>
      obtain ⟨rfl, h⟩ := forall₂_fieldItself.1 hs
      exact ⟨rfl, H.object.2 h⟩
    | primitive p => exact ⟨rfl, H.primitive p⟩
    | builtin b => exact ⟨rfl, H.builtin b⟩
    | closure | cached | cont | dist => cases hid
  unique := by
    rintro v _ v' _ i j i' j' ⟨rfl, _⟩ ⟨rfl, _⟩ hi hj hi' hj'
    cases hi.symm.trans hj
    cases hi'.symm.trans hj'
    exact Iff.rfl

theorem argument (h : ∀ v ∈ vs, P v) (i : Nat) : P (argument vs i) :=
  (H.likeness.argument (forall₂_itself.2 ⟨rfl, h⟩) i).2

theorem toItems (hv : P v) (h : v.toItems = .ok vs) : ∀ v ∈ vs, P v :=
  (H.likeness.toItems ⟨rfl, hv⟩).holds h fun _ hvs => (forall₂_itself.1 hvs).2

theorem toDist (hv : P v) (h : v.toDist = .ok d) : ∀ v ∈ d.values, P v :=
  (H.likeness.toDist ⟨rfl, hv⟩).holds h fun _ hd => forall_values_of_distLike hd

theorem support {d : Dist} (h : ∀ v ∈ d.values, P v) : ∀ v ∈ d.support.getD [], P v := by
  have hsupport := H.likeness.support (distLike_itself h)
  generalize d.support = x at hsupport ⊢
  cases hsupport with
  | none => exact nofun
  | some hvs => exact (forall₂_itself.1 hvs).2

theorem enumerable (h : ∀ v ∈ d.values, P v) (hvs : enumerable d = .ok vs) : ∀ v ∈ vs, P v := by
  have hsupport := H.support h
  unfold Chance.enumerable at hvs
  split at hvs
  · cases hvs
  · cases hvs
  · next hd =>
    cases hvs
    rwa [hd] at hsupport

theorem gatherNext (how : Gather) {acc item : Value} (hacc : P acc) (hitem : P item) (hv : P v) :
    P (how.next acc item v) := by
  have hpush {u : Value} (hu : P u) : P (Gather.map.next acc item u) := by
    cases acc with
    | array vs =>
      exact H.array.2 (List.forall_mem_append.2 ⟨H.array.1 hacc, List.forall_mem_singleton.2 hu⟩)
    | _ => exact H.array.2 (List.forall_mem_singleton.2 hu)
  cases how with
  | map | times => exact hpush hv
  | filter =>
    simp only [Gather.next]
    split_ifs
    · exact hpush hitem
    · exact hacc
  | forEach => exact H.undefined

end Inherited

theorem setField_inherits {fs : List (String × Value)} (h : ∀ f ∈ fs, P f.2) (hv : P v)
    (key : String) : ∀ f ∈ setField fs key v, P f.2 :=
  (forall₂_fieldItself.1
    (Semblance.setField (forall₂_fieldItself.2 ⟨rfl, h⟩) key ⟨rfl, hv⟩)).2

theorem tally_add_inherits (h : ∀ u ∈ t.entries, P u.value) (hv : P v) (score : Float) :
    ∀ u ∈ (t.add v score).entries, P u.value := by
  have hlike := Tally.add_like (R := Itself P) score
    (List.forall₂_same.2 fun u hu => ⟨rfl, ⟨rfl, h u hu⟩, rfl, rfl⟩) ⟨rfl, hv⟩ fun _ => rfl
  exact forall_of_forall₂ hlike fun _ _ hu => hu.value.2

theorem marginal_inherits (h : ∀ u ∈ t.entries, P u.value) (hd : t.marginal = .ok d) :
    ∀ v ∈ d.values, P v := by
  rw [Tally.marginal] at hd
  split_ifs at hd
  cases hd
  exact List.forall_mem_map.2 (List.forall_mem_map.2 h)

theorem mem_of_lookup {α β : Type} [BEq α] [LawfulBEq α] {ps : List (α × β)} {k : α} {v : β}
    (h : ps.lookup k = some v) : (k, v) ∈ ps := by
  obtain ⟨_, _, rfl, _⟩ := List.lookup_eq_some_iff.1 h
  simp

section Tables

variable {Q : Nat → String → Value → Prop} {m : Machine} {table : Nat} {key : String} {v : Value}

theorem cached?_inherits (h : ∀ t ∈ m.tables, ∀ f ∈ t.2, Q t.1 f.1 f.2)
    (hv : m.cached? table key = some v) : Q table key v := by
  obtain ⟨entries, hentries, hlookup⟩ := Option.bind_eq_some_iff.1 hv
  exact h _ (mem_of_lookup hentries) _ (mem_of_lookup hlookup)

theorem remember_inherits (h : ∀ t ∈ m.tables, ∀ f ∈ t.2, Q t.1 f.1 f.2) (hv : Q table key v) :
    ∀ t ∈ (m.remember table key v).tables, ∀ f ∈ t.2, Q t.1 f.1 f.2 := by
  refine List.forall_mem_cons.2 ⟨List.forall_mem_cons.2 ⟨hv, ?_⟩, fun t ht => ?_⟩
  · cases hentries : m.tables.lookup table with
    | none => exact nofun
    | some entries => exact h _ (mem_of_lookup hentries)
  · exact h t (List.mem_of_mem_filter ht)

end Tables

/-! ## Computations in place -/

/-- The second state is one that a computation in place can leave: at most, the store has changed,
to values with the property, identities have been given out and something has been printed. -/
structure Machine.Grows (P : Value → Prop) (m n : Machine) : Prop where
  stack : n.stack = m.stack
  tables : n.tables = m.tables
  nextId : m.nextId ≤ n.nextId
  store : ∀ f ∈ n.store, P f.2

theorem Machine.Grows.trans {l n : Machine} (h : l.Grows P m) (h' : m.Grows P n) : l.Grows P n :=
  ⟨h'.stack.trans h.stack, h'.tables.trans h.tables, h.nextId.trans h'.nextId, h'.store⟩

theorem Inherited.answer (H : Inherited P) (hd : ∀ v ∈ d.values, P v) (hm : ∀ f ∈ m.store, P f.2)
    (i : Nat) (address : String) (options : Value) :
    P (m.answer i address d options).1 ∧ m.Grows P (m.answer i address d options).2 := by
  unfold Machine.answer
  split
  · exact ⟨H.undefined, rfl, rfl, le_rfl, hm⟩
  · exact ⟨H.argument (H.support hd) _, rfl, rfl, le_rfl, hm⟩

theorem note_grows (hm : ∀ f ∈ m.store, P f.2) (i : Nat) (address : String) (x : Float) :
    m.Grows P (m.note i address x) := by
  unfold Machine.note
  split <;> exact ⟨rfl, rfl, le_rfl, hm⟩

/-- The computation is one in place, and its result satisfies `Q`. -/
def Exec.Preserves {α : Type} (P : Value → Prop) (Q : α → Prop) (x : Exec α) (m : Machine) : Prop :=
  match x m with
  | .ok a n => Q a ∧ m.Grows P n
  | .error _ n => m.Grows P n

namespace Exec.Preserves

variable {P : Value → Prop} {α β : Type} {Q : α → Prop} {R : β → Prop} {m : Machine}

theorem pure {a : α} (hm : ∀ f ∈ m.store, P f.2) (h : Q a) : Preserves P Q (pure a) m :=
  ⟨h, rfl, rfl, le_rfl, hm⟩

theorem throw (hm : ∀ f ∈ m.store, P f.2) (e : Error) : Preserves P Q (throw e) m :=
  ⟨rfl, rfl, le_rfl, hm⟩

theorem bind {x : Exec α} {f : α → Exec β} (h : Preserves P Q x m)
    (k : ∀ a n, Q a → (∀ f ∈ n.store, P f.2) → Preserves P R (f a) n) :
    Preserves P R (x >>= f) m := by
  unfold Preserves at h ⊢
  simp only [Bind.bind, EStateM.bind]
  cases hx : x m with
  | error e n =>
    rw [hx] at h
    exact h
  | ok a n =>
    rw [hx] at h
    obtain ⟨ha, hn⟩ := h
    have hk := k a n ha hn.store
    unfold Preserves at hk
    dsimp only
    split at hk
    · exact ⟨hk.1, hn.trans hk.2⟩
    · exact hn.trans hk

theorem freshId (hm : ∀ f ∈ m.store, P f.2) : Preserves P (fun _ => True) Exec.freshId m :=
  ⟨trivial, rfl, rfl, Nat.le_succ _, hm⟩

end Exec.Preserves

open Exec

section Anything

/-- Nothing is asked of values, so all of them are like themselves. -/
theorem anything_inherited : Inherited fun _ => True := by
  constructor <;> simp

theorem Primitive.run_itself (p : Primitive) (vs : List Value) :
    InPlace (Itself fun _ => True) (p.run vs) (p.run vs) :=
  (anything_inherited.likeness.run_inStep p (forall₂_itself.2 ⟨rfl, fun _ _ => trivial⟩)).inPlace

theorem Formed.itself {e : Expr} {es : List Expr} {wrap : List Expr → Expr}
    {make : List Value → Exec Value} (h : Formed e es wrap make) (vs : List Value) :
    InPlace (Itself fun _ => True) (make vs) (make vs) :=
  (h.inStep anything_inherited.likeness (forall₂_itself.2 ⟨rfl, fun _ _ => trivial⟩)).inPlace

end Anything

theorem Inherited.inPlace (H : Inherited P) {x y : Exec Value} (h : InPlace (Itself P) x y)
    (hm : ∀ f ∈ m.store, P f.2) : Preserves P P x m := by
  induction h with
  | pure h => exact .pure hm h.2
  | throw _ => exact .throw hm _
  | @lift x y h =>
    cases x with
    | error e => exact .throw hm e
    | ok a => exact .pure hm (h.holds rfl fun _ hab => hab.2)
  | @bind α β Q x y f g h _ ih =>
    cases x with
    | error e => exact Preserves.throw hm e
    | ok a =>
      obtain ⟨b, _, hab⟩ := h
      exact ih a b hab
  | newDist h =>
    refine (Preserves.freshId hm).bind fun i n _ hn => .pure hn (H.dist.2 ?_)
    exact forall_values_of_distLike h
  | print _ => exact ⟨H.undefined, rfl, rfl, le_rfl, hm⟩

/-- A class of expressions, and a scope in which its names and functions give values with the
property. -/
structure Supplies (P : Value → Prop) (A : Expr → Prop) (env : Env) : Prop where
  parts : ∀ {e}, A e → e.Parts A
  var : ∀ {x v}, A (.var x) → env.lookup? x = some v → P v
  func : ∀ {name params body} (i), A (.func name params body) →
    P (.closure i name params body env)

section Evaluation

variable {P : Value → Prop} {A : Expr → Prop} {env : Env}

theorem preserves_evalAll {es : List Expr}
    (h : ∀ e ∈ es, ∀ {m}, (∀ f ∈ m.store, P f.2) → Preserves P P (eval env e) m) :
    ∀ {m : Machine}, (∀ f ∈ m.store, P f.2) →
      Preserves P (fun vs => ∀ v ∈ vs, P v) (evalAll env es) m := by
  induction es with
  | nil => exact fun hm => .pure hm (List.forall_mem_nil _)
  | cons e es ih =>
    obtain ⟨he, hes⟩ := List.forall_mem_cons.1 h
    refine fun hm => (he hm).bind fun v n hv hn => (ih hes hn).bind fun vs n' hvs hn' => ?_
    exact .pure hn' (List.forall_mem_cons.2 ⟨hv, hvs⟩)

/-- Evaluation in place gives values with the property. -/
theorem Inherited.eval (H : Inherited P) (hA : Supplies P A env) {e : Expr} (he : A e) {m : Machine}
    (hm : ∀ f ∈ m.store, P f.2) : Preserves P P (eval env e) m := by
  induction e using Expr.form_induction generalizing m with
  | num x => exact .pure hm (H.num x)
  | str s => exact .pure hm (H.str s)
  | bool b => exact .pure hm (H.bool b)
  | null => exact .pure hm H.null
  | undefined => exact .pure hm H.undefined
  | var x =>
    simp only [Chance.eval]
    split_ifs
    · exact ⟨H.object.2 hm, rfl, rfl, le_rfl, hm⟩
    · cases hv : env.lookup? x with
      | none => exact .throw hm _
      | some v => exact .pure hm (hA.var he hv)
  | formed h ih =>
    -- Every form keeps likenesses, and the property is one: a value is like itself if it has it.
    rw [h.eval]
    refine (preserves_evalAll (fun d hd => ih d hd (h.operands hA.parts he d hd)) hm).bind ?_
    exact fun vs n hvs hn =>
      H.inPlace (h.inStep H.likeness (forall₂_itself.2 ⟨rfl, hvs⟩)).inPlace hn
  | logic op ihl ihr =>
    refine (ihl (hA.parts he).1 hm).bind fun v _ hv hn => ?_
    have hright := ihr (hA.parts he).2 hn
    cases op <;> cases v.truthy
    · exact .pure hn hv
    · exact hright
    · exact hright
    · exact .pure hn hv
  | cond iht ihc iha =>
    refine (iht (hA.parts he).1 hm).bind fun v _ _ hn => ?_
    split_ifs
    · exact ihc (hA.parts he).2.1 hn
    · exact iha (hA.parts he).2.2 hn
  | func => exact (Preserves.freshId hm).bind fun i _ _ hn => .pure hn (hA.func i he)
  | assign ihp ihv =>
    obtain ⟨ht, hv⟩ := hA.parts he
    simp only [Chance.eval, if_true]
    refine (ihp (hA.parts ht).2 hm).bind fun v n hv' hn => (ihv hv hn).bind fun w n' hw hn' => ?_
    exact ⟨hw, rfl, rfl, le_rfl, setField_inherits hn' hw _⟩
  | call_other es hprimitive =>
    rw [eval_call_other hprimitive]
    exact .throw hm _
  | assign_other v hplace =>
    rw [eval_assign_other hplace]
    exact .throw hm _

theorem Inherited.evalAll (H : Inherited P) (hA : Supplies P A env) {es : List Expr}
    (h : ∀ e ∈ es, A e) {m : Machine} (hm : ∀ f ∈ m.store, P f.2) :
    Preserves P (fun vs => ∀ v ∈ vs, P v) (evalAll env es) m :=
  preserves_evalAll (fun e he => H.eval hA (h e he)) hm

end Evaluation

end Chance
