import Chance.Proofs.Likeness.Data
import Chance.Proofs.Machine.Matching
import Chance.Proofs.Meaning.Counting

/-!
# Values of a program and values of its code

The same program can be evaluated directly and run as compiled code. A value of the one evaluation
is realized by a value of the other: data by themselves, and a function by a function that has the
code of its body, in a scope that binds the same names to values that are realized. Identities
correspond by a matching, which grows while both evaluations go on.

- `Converted`: a function and its code,
- `Value.Realized`, `EnvRealized`, `Machine.Realized`: values, scopes and states,
- `realized_likeness`: nothing that is computed in place tells a value from what realizes it.
-/

namespace Chance

open Compile

/-! ## Values -/

/-- The code of a function, which takes the continuation `κ` and the address `a`. -/
structure Converted (name : Option String) (params : List String) (body : List Stmt)
    (κ a : String) (code : Expr) : Prop where
  tame : (Expr.func name params body).Meets .tame
  address : IsAddressName a
  code : ∃ (body' : List Stmt) (i n : Nat), StmtsAddressed a body body' ∧
    stmtsSteady body' = true ∧ κ = generated "k" i ∧ i < n ∧
    code = ((sequence body' (.var κ)).run n).1

/-- The second value is in compiled code what the first one is in direct evaluation. -/
inductive Value.Realized (π : Matching) : Value → Value → Prop
  | undefined : Value.Realized π .undefined .undefined
  | null : Value.Realized π .null .null
  | bool (b : Bool) : Value.Realized π (.bool b) (.bool b)
  | num (x : Float) : Value.Realized π (.num x) (.num x)
  | str (s : String) : Value.Realized π (.str s) (.str s)
  | array {vs ws : List Value} :
      List.Forall₂ (Value.Realized π) vs ws → Value.Realized π (.array vs) (.array ws)
  | object {fs gs : List (String × Value)} :
      List.Forall₂ (FieldLike (Value.Realized π)) fs gs → Value.Realized π (.object fs) (.object gs)
  | closure {i j : Nat} {name : Option String} {params : List String} {body : List Stmt}
      {κ a : String} {code : Expr} {env env' : List (List (String × Value))} :
      π.ids i j → Converted name params body κ a code →
      (∀ x, ¬ IsGenerated x →
        Option.Rel (Value.Realized π) (Env.lookup? env x) (Env.lookup? env' x)) →
      Value.Realized π (.closure i name params body env)
        (.closure j name (κ :: a :: params) [.expr code] env')
  | primitive (p : Primitive) : Value.Realized π (.primitive p) (.primitive p)
  | builtin (b : Builtin) : Value.Realized π (.builtin b) (.builtin b)
  | dist {i j : Nat} {d e : Dist} :
      π.ids i j → DistLike (Value.Realized π) d e → Value.Realized π (.dist i d) (.dist j e)

/-- Names of the program have values in the second scope that realize those in the first. -/
def EnvRealized (π : Matching) (env env' : Env) : Prop :=
  ∀ x, ¬ IsGenerated x → Option.Rel (Value.Realized π) (env.lookup? x) (env'.lookup? x)

abbrev StoreRealized (π : Matching) (s t : Store) : Prop :=
  List.Forall₂ (FieldLike (Value.Realized π)) s t

theorem realized_likeness (π : Matching) : Likeness (Value.Realized π) where
  layer := by
    intro v w h
    cases h with
    | undefined => exact .undefined
    | null => exact .null
    | bool b => exact .bool b
    | num x => exact .num x
    | str s => exact .str s
    | array hs => exact .array hs
    | object hs => exact .object hs
    | closure => exact .closure
    | primitive p => exact .primitive p
    | builtin b => exact .builtin b
    | dist _ hd => exact .dist hd
  data := by
    intro v w h hid
    cases h with
    | undefined => exact .undefined
    | null => exact .null
    | bool b => exact .bool b
    | num x => exact .num x
    | str s => exact .str s
    | array hs => exact .array hs
    | object hs => exact .object hs
    | primitive p => exact .primitive p
    | builtin b => exact .builtin b
    | closure | cached | cont | dist => cases hid
  unique := by
    have matched {v w : Value} {i j : Nat} (h : v.Realized π w) (hi : v.id? = some i)
        (hj : w.id? = some j) : π.ids i j := by
      cases h with
      | closure hij | dist hij =>
        cases hi
        cases hj
        exact hij
      | _ => cases hi
    intro v w v' w' i j i' j' h h' hi hj hi' hj'
    exact π.unique (matched h hi hj) (matched h' hi' hj')

section Mono

variable {π ρ : Matching}

mutual

theorem Value.Realized.mono (hπ : π ≤ ρ) : ∀ {v w : Value}, v.Realized π w → v.Realized ρ w
  | .undefined, _, h => by cases h; exact .undefined
  | .null, _, h => by cases h; exact .null
  | .bool _, _, h => by cases h; exact .bool _
  | .num _, _, h => by cases h; exact .num _
  | .str _, _, h => by cases h; exact .str _
  | .primitive _, _, h => by cases h; exact .primitive _
  | .builtin _, _, h => by cases h; exact .builtin _
  | .cached _ _, _, h => by cases h
  | .cont _ _, _, h => by cases h
  | .array vs, _, h => by
    cases h with
    | array hs => exact .array (valuesRealized_mono hπ hs)
  | .object fs, _, h => by
    cases h with
    | object hs => exact .object (fieldsRealized_mono hπ hs)
  | .closure _ _ _ _ env, _, h => by
    cases h with
    | closure hij hconverted henv =>
      have hframes := framesRealized_mono hπ env
      refine .closure (hπ _ _ hij) hconverted fun x hx => optionRel_imp (henv x hx) ?_
      -- What a name is bound to is part of the scope, so the frames have been dealt with.
      intro v w hlookup hv
      rcases lookup?_mem hlookup with ⟨frame, hframe, hb⟩
      exact hframes frame hframe _ hb hv
  | .dist _ _, _, h => by
    cases h with
    | dist hij hd => exact .dist (hπ _ _ hij) (distRealized_mono hπ hd)
termination_by structural v => v

theorem valuesRealized_mono (hπ : π ≤ ρ) : ∀ {vs ws : List Value},
    List.Forall₂ (Value.Realized π) vs ws → List.Forall₂ (Value.Realized ρ) vs ws
  | [], _, h => by cases h; exact .nil
  | _ :: _, _, h => by
    cases h with
    | cons hv hs => exact .cons (hv.mono hπ) (valuesRealized_mono hπ hs)
termination_by structural vs => vs

theorem fieldsRealized_mono (hπ : π ≤ ρ) : ∀ {fs gs : List (String × Value)},
    StoreRealized π fs gs → StoreRealized ρ fs gs
  | [], _, h => by cases h; exact .nil
  | (_, _) :: _, _, h => by
    cases h with
    | cons hf hs =>
      rcases hf with ⟨hv⟩
      exact .cons ⟨hv.mono hπ⟩ (fieldsRealized_mono hπ hs)
termination_by structural fs => fs

theorem frameRealized_mono (hπ : π ≤ ρ) : ∀ (frame : List (String × Value)), ∀ b ∈ frame,
    ∀ {w : Value}, b.2.Realized π w → b.2.Realized ρ w
  | [] => nofun
  | (_, _) :: frame => List.forall_mem_cons.2
    ⟨fun h => Value.Realized.mono hπ h, frameRealized_mono hπ frame⟩
termination_by structural frame => frame

theorem framesRealized_mono (hπ : π ≤ ρ) : ∀ (env : List (List (String × Value))),
    ∀ frame ∈ env, ∀ b ∈ frame, ∀ {w : Value}, b.2.Realized π w → b.2.Realized ρ w
  | [] => nofun
  | frame :: env => List.forall_mem_cons.2
    ⟨frameRealized_mono hπ frame, framesRealized_mono hπ env⟩
termination_by structural env => env

theorem sharesRealized_mono (hπ : π ≤ ρ) : ∀ {es fs : List (String × Value × Float)},
    List.Forall₂ (ShareLike (Value.Realized π)) es fs →
    List.Forall₂ (ShareLike (Value.Realized ρ)) es fs
  | [], _, h => by cases h; exact .nil
  | (_, _, _) :: _, _, h => by
    cases h with
    | cons hf hs =>
      rcases hf with ⟨hv⟩
      exact .cons ⟨hv.mono hπ⟩ (sharesRealized_mono hπ hs)
termination_by structural es => es

theorem distRealized_mono (hπ : π ≤ ρ) : ∀ {d e : Dist},
    DistLike (Value.Realized π) d e → DistLike (Value.Realized ρ) d e
  | .bernoulli _, _, h => by cases h; exact .bernoulli _
  | .randomInteger _, _, h => by cases h; exact .randomInteger _
  | .categorical _ _, _, h => by
    cases h with
    | categorical _ hs => exact .categorical _ (valuesRealized_mono hπ hs)
  | .discrete _, _, h => by cases h; exact .discrete _
  | .binomial _ _, _, h => by cases h; exact .binomial _ _
  | .delta _, _, h => by
    cases h with
    | delta hv => exact .delta (hv.mono hπ)
  | .uniform _ _, _, h => by cases h; exact .uniform _ _
  | .gaussian _ _, _, h => by cases h; exact .gaussian _ _
  | .marginal _, _, h => by
    cases h with
    | marginal hs => exact .marginal (sharesRealized_mono hπ hs)
termination_by structural d => d

end

theorem EnvRealized.mono {env env' : Env} (h : EnvRealized π env env') (hπ : π ≤ ρ) :
    EnvRealized ρ env env' := by
  intro x hx
  exact optionRel_imp (h x hx) fun _ _ _ hv => hv.mono hπ

end Mono

/-! ## Scopes -/

section Scopes

variable {π : Matching} {c : Nat} {env env' env'' : Env} {v w self self' : Value}
  {vs ws : List Value}

theorem EnvRealized.agrees (h : EnvRealized π env env') (ha : env'.Agrees c env'') :
    EnvRealized π env env'' := by
  intro x hx
  rw [ha x fun hfresh => hx hfresh.isGenerated]
  exact h x hx

theorem EnvRealized.push {frame frame' : Frame} (h : EnvRealized π env env')
    (hframe : ∀ x, ¬ IsGenerated x →
      Option.Rel (Value.Realized π) (frameLookup frame x) (frameLookup frame' x)) :
    EnvRealized π (frame :: env) (frame' :: env') := by
  intro x hx
  rw [lookup?_cons, lookup?_cons]
  exact optionOr_rel (hframe x hx) (h x hx)

/-- Declarations in both scopes. -/
theorem EnvRealized.bind (h : EnvRealized π env env') (x : String) (hv : v.Realized π w) :
    EnvRealized π ([(x, v)] :: env) ([(x, w)] :: env') :=
  h.push fun y _ => frameLookup_rel (.cons ⟨hv⟩ .nil) y

theorem params_realized (params : List String) (hs : List.Forall₂ (Value.Realized π) vs ws) :
    List.Forall₂ (FieldLike (Value.Realized π))
      (params.zipIdx.map fun (x, i) => (x, argument vs i))
      (params.zipIdx.map fun (x, i) => (x, argument ws i)) := by
  rw [List.forall₂_map_left_iff, List.forall₂_map_right_iff, List.forall₂_same]
  rintro ⟨x, i⟩ _
  exact ⟨(realized_likeness π).argument hs i⟩

/-- The scopes of a function that is called: the code has a continuation and an address besides. -/
theorem EnvRealized.enter (h : EnvRealized π env env') (hself : self.Realized π self')
    (name : Option String) (params : List String) (hs : List.Forall₂ (Value.Realized π) vs ws)
    {κ a : String} (hκ : IsGenerated κ) (ha : IsGenerated a) (k : Value) (address : String) :
    EnvRealized π (bindParams self name params vs :: env)
      (bindParams self' name (κ :: a :: params) (k :: .str address :: ws) :: env') := by
  refine h.push fun x hx => ?_
  have hown : List.Forall₂ (FieldLike (Value.Realized π)) (bindParams self name [] [])
      (bindParams self' name [] []) := by
    cases name with
    | none => exact .nil
    | some f => exact .cons ⟨hself⟩ .nil
  have hne {y : String} (hy : IsGenerated y) : y ≠ x := by
    rintro rfl
    exact hx hy
  have hsplit : bindParams self name params vs =
      bindParams self name [] [] ++ params.zipIdx.map fun (x, i) => (x, argument vs i) := by
    simp only [bindParams, List.zipIdx_nil, List.map_nil, List.append_nil]
  rw [bindParams_function, hsplit, List.append_cons, List.append_cons, frameLookup_append,
    frameLookup_append, frameLookup_append, frameLookup_append, frameLookup_singleton,
    frameLookup_singleton, if_neg (hne hκ), if_neg (hne ha), Option.none_or, Option.none_or]
  exact optionOr_rel (frameLookup_rel (params_realized params hs) x) (frameLookup_rel hown x)

end Scopes

/-! ## States -/

/-- The store is realized, and all identities that correspond have been given out. -/
structure Machine.Realized (π : Matching) (m n : Machine) : Prop where
  store : StoreRealized π m.store n.store
  left : ∀ i j, π.ids i j → i < m.nextId
  right : ∀ i j, π.ids i j → j < n.nextId

end Chance
