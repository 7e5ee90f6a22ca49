import Chance.Proofs.Likeness.Primitives
import Chance.Proofs.Machine.Matching

/-!
# Values that do the same

Two runs of different code can use different functions for the same purpose. What has to be known of
two functions so that one can stand in for the other is left open here (`Ties`); the rest of a value
has to be the same, up to identities that correspond. Functions of the program are called with a
continuation and arguments. Functions that stand for continuations are only ever given a value, and
nothing compares them, so that their identities need not correspond.

- `Ties`: what is asked of functions and of continuations,
- `Value.Akin`: values of which one can stand in for the other,
- `Value.Receives`, `Cont.Akin`, `Loop.Akin`: the same for continuations,
- `akin_likeness`: nothing that is computed in place tells such values apart.
-/

namespace Chance

/-! ## Ties -/

/-- What is asked of two functions that are called, and of two functions that receive a value. It
keeps holding while more identities correspond. -/
structure Ties where
  call : Matching → Value → Value → Prop
  resume : Matching → Value → Value → Prop
  call_mono : ∀ {π ρ : Matching} {f g : Value}, π ≤ ρ → call π f g → call ρ f g
  resume_mono : ∀ {π ρ : Matching} {f g : Value}, π ≤ ρ → resume π f g → resume ρ f g

namespace Ties

/-- The first ask for more than the second. -/
structure Le (T U : Ties) : Prop where
  call : ∀ {π : Matching} {f g : Value}, T.call π f g → U.call π f g
  resume : ∀ {π : Matching} {f g : Value}, T.resume π f g → U.resume π f g

instance : LE Ties := ⟨Le⟩

variable {T U V : Ties}

theorem le_refl (T : Ties) : T ≤ T := ⟨id, id⟩

theorem le_trans (h : T ≤ U) (h' : U ≤ V) : T ≤ V :=
  ⟨fun hf => h'.call (h.call hf), fun hk => h'.resume (h.resume hk)⟩

/-- Nothing is asked of functions. -/
def none : Ties where
  call _ _ _ := True
  resume _ _ _ := True
  call_mono _ _ := trivial
  resume_mono _ _ := trivial

end Ties

/-! ## Values -/

/-- The second value can stand in for the first. -/
inductive Value.Akin (T : Ties) (π : Matching) : Value → Value → Prop
  | undefined : Value.Akin T π .undefined .undefined
  | null : Value.Akin T π .null .null
  | bool (b : Bool) : Value.Akin T π (.bool b) (.bool b)
  | num (x : Float) : Value.Akin T π (.num x) (.num x)
  | str (s : String) : Value.Akin T π (.str s) (.str s)
  | array {vs ws : List Value} :
      List.Forall₂ (Value.Akin T π) vs ws → Value.Akin T π (.array vs) (.array ws)
  | object {fs gs : List (String × Value)} :
      List.Forall₂ (FieldLike (Value.Akin T π)) fs gs → Value.Akin T π (.object fs) (.object gs)
  | closure {i j : Nat} {name : Option String} {ps qs : List String} {b c : List Stmt}
      {env env' : List (List (String × Value))} :
      π.ids i j → T.call π (.closure i name ps b env) (.closure j name qs c env') →
      Value.Akin T π (.closure i name ps b env) (.closure j name qs c env')
  | primitive (p : Primitive) : Value.Akin T π (.primitive p) (.primitive p)
  | builtin (b : Builtin) : Value.Akin T π (.builtin b) (.builtin b)
  | cached {i j : Nat} {f g : Value} :
      π.ids i j → Value.Akin T π f g → Value.Akin T π (.cached i f) (.cached j g)
  | dist {i j : Nat} {d e : Dist} :
      π.ids i j → DistLike (Value.Akin T π) d e → Value.Akin T π (.dist i d) (.dist j e)

mutual

/-- The second continuation can stand in for the first. -/
inductive Value.Receives (T : Ties) (π : Matching) : Value → Value → Prop
  | closure {i j : Nat} {name name' : Option String} {ps qs : List String} {b c : List Stmt}
      {env env' : List (List (String × Value))} :
      T.resume π (.closure i name ps b env) (.closure j name' qs c env') →
      Value.Receives T π (.closure i name ps b env) (.closure j name' qs c env')
  | cont {i j : Nat} {c d : Cont} :
      Cont.Akin T π c d → Value.Receives T π (.cont i c) (.cont j d)

inductive Cont.Akin (T : Ties) (π : Matching) : Cont → Cont → Prop
  | exit : Cont.Akin T π .exit .exit
  | collect {l l' : Loop} {rest rest' : List Value} {acc acc' item item' : Value} (index : Nat) :
      Loop.Akin T π l l' → List.Forall₂ (Value.Akin T π) rest rest' → acc.Akin T π acc' →
      item.Akin T π item' →
      Cont.Akin T π (.collect l index rest acc item) (.collect l' index rest' acc' item')
  | remember {i j : Nat} {k k' : Value} (key : String) :
      π.ids i j → Value.Receives T π k k' → Cont.Akin T π (.remember i key k) (.remember j key k')
  | drawn {k k' f f' : Value} (address : String) :
      Value.Receives T π k k' → f.Akin T π f' →
      Cont.Akin T π (.drawn k address f) (.drawn k' address f')
  | scored {k k' v v' : Value} (address : String) :
      Value.Receives T π k k' → v.Akin T π v' →
      Cont.Akin T π (.scored k address v) (.scored k' address v')
  | weighted {k k' v v' : Value} :
      Value.Receives T π k k' → v.Akin T π v' → Cont.Akin T π (.weighted k v) (.weighted k' v')
  | leave {i j : Nat} : π.ids i j → Cont.Akin T π (.leave i) (.leave j)

inductive Loop.Akin (T : Ties) (π : Matching) : Loop → Loop → Prop
  | gather {k k' f f' : Value} (how : Gather) (address : String) :
      Value.Receives T π k k' → f.Akin T π f' →
      Loop.Akin T π (.gather how k address f) (.gather how k' address f')
  | weigh {i j : Nat} {k k' f f' : Value} {d e : Dist} {store store' : List (String × Value)}
      (address : String) (base : Float) :
      π.ids i j → Value.Receives T π k k' → DistLike (Value.Akin T π) d e → f.Akin T π f' →
      List.Forall₂ (FieldLike (Value.Akin T π)) store store' →
      Loop.Akin T π (.weigh i k address d f store base) (.weigh j k' address e f' store' base)

end

theorem akin_likeness (T : Ties) (π : Matching) : Likeness (Value.Akin T π) where
  layer := by
    intro v w h
    cases h with
    | undefined => exact .undefined
    | null => exact .null
    | bool b => exact .bool b
    | num x => exact .num x
    | str s => exact .str s
    | array hs => exact .array hs
    | object hs => exact .object hs
    | closure => exact .closure
    | primitive p => exact .primitive p
    | builtin b => exact .builtin b
    | cached => exact .cached
    | dist _ hd => exact .dist hd
  data := by
    intro v w h hid
    cases h with
    | undefined => exact .undefined
    | null => exact .null
    | bool b => exact .bool b
    | num x => exact .num x
    | str s => exact .str s
    | array hs => exact .array hs
    | object hs => exact .object hs
    | primitive p => exact .primitive p
    | builtin b => exact .builtin b
    | closure | cached | cont | dist => cases hid
  unique := by
    have matched {v w : Value} {i j : Nat} (h : v.Akin T π w) (hi : v.id? = some i)
        (hj : w.id? = some j) : π.ids i j := by
      cases h with
      | closure hij | cached hij | dist hij =>
        cases hi
        cases hj
        exact hij
      | _ => cases hi
    intro v w v' w' i j i' j' h h' hi hj hi' hj'
    exact π.unique (matched h hi hj) (matched h' hi' hj')

/-! ## Growth -/

section Mono

variable {T U : Ties} {π ρ : Matching}

mutual

theorem Value.Akin.mono (hT : T ≤ U) (hπ : π ≤ ρ) :
    ∀ {v w : Value}, v.Akin T π w → v.Akin U ρ w
  | .undefined, _, h => by cases h; exact .undefined
  | .null, _, h => by cases h; exact .null
  | .bool _, _, h => by cases h; exact .bool _
  | .num _, _, h => by cases h; exact .num _
  | .str _, _, h => by cases h; exact .str _
  | .primitive _, _, h => by cases h; exact .primitive _
  | .builtin _, _, h => by cases h; exact .builtin _
  | .cont _ _, _, h => by cases h
  | .array _, _, h => by
    cases h with
    | array hs => exact .array (valuesAkin_mono hT hπ hs)
  | .object _, _, h => by
    cases h with
    | object hs => exact .object (fieldsAkin_mono hT hπ hs)
  | .closure .., _, h => by
    cases h with
    | closure hij hf => exact .closure (hπ _ _ hij) (U.call_mono hπ (hT.call hf))
  | .cached _ _, _, h => by
    cases h with
    | cached hij hf => exact .cached (hπ _ _ hij) (hf.mono hT hπ)
  | .dist _ _, _, h => by
    cases h with
    | dist hij hd => exact .dist (hπ _ _ hij) (distAkin_mono hT hπ hd)
termination_by structural v => v

theorem valuesAkin_mono (hT : T ≤ U) (hπ : π ≤ ρ) : ∀ {vs ws : List Value},
    List.Forall₂ (Value.Akin T π) vs ws → List.Forall₂ (Value.Akin U ρ) vs ws
  | [], _, h => by cases h; exact .nil
  | _ :: _, _, h => by
    cases h with
    | cons hv hs => exact .cons (hv.mono hT hπ) (valuesAkin_mono hT hπ hs)
termination_by structural vs => vs

theorem fieldsAkin_mono (hT : T ≤ U) (hπ : π ≤ ρ) : ∀ {fs gs : List (String × Value)},
    List.Forall₂ (FieldLike (Value.Akin T π)) fs gs →
    List.Forall₂ (FieldLike (Value.Akin U ρ)) fs gs
  | [], _, h => by cases h; exact .nil
  | (_, _) :: _, _, h => by
    cases h with
    | cons hf hs =>
      obtain ⟨hv⟩ := hf
      exact .cons ⟨hv.mono hT hπ⟩ (fieldsAkin_mono hT hπ hs)
termination_by structural fs => fs

theorem sharesAkin_mono (hT : T ≤ U) (hπ : π ≤ ρ) : ∀ {es fs : List (String × Value × Float)},
    List.Forall₂ (ShareLike (Value.Akin T π)) es fs →
    List.Forall₂ (ShareLike (Value.Akin U ρ)) es fs
  | [], _, h => by cases h; exact .nil
  | (_, _, _) :: _, _, h => by
    cases h with
    | cons hf hs =>
      obtain ⟨hv⟩ := hf
      exact .cons ⟨hv.mono hT hπ⟩ (sharesAkin_mono hT hπ hs)
termination_by structural es => es

theorem distAkin_mono (hT : T ≤ U) (hπ : π ≤ ρ) : ∀ {d e : Dist},
    DistLike (Value.Akin T π) d e → DistLike (Value.Akin U ρ) d e
  | .bernoulli _, _, h => by cases h; exact .bernoulli _
  | .randomInteger _, _, h => by cases h; exact .randomInteger _
  | .categorical _ _, _, h => by
    cases h with
    | categorical _ hs => exact .categorical _ (valuesAkin_mono hT hπ hs)
  | .discrete _, _, h => by cases h; exact .discrete _
  | .binomial _ _, _, h => by cases h; exact .binomial _ _
  | .delta _, _, h => by
    cases h with
    | delta hv => exact .delta (hv.mono hT hπ)
  | .uniform _ _, _, h => by cases h; exact .uniform _ _
  | .gaussian _ _, _, h => by cases h; exact .gaussian _ _
  | .marginal _, _, h => by
    cases h with
    | marginal hs => exact .marginal (sharesAkin_mono hT hπ hs)
termination_by structural d => d

end

mutual

theorem Value.Receives.mono (hT : T ≤ U) (hπ : π ≤ ρ) :
    ∀ {k k' : Value}, k.Receives T π k' → k.Receives U ρ k'
  | _, _, .closure hk => .closure (U.resume_mono hπ (hT.resume hk))
  | _, _, .cont hc => .cont (hc.mono hT hπ)

theorem Cont.Akin.mono (hT : T ≤ U) (hπ : π ≤ ρ) : ∀ {c d : Cont}, c.Akin T π d → c.Akin U ρ d
  | _, _, .exit => .exit
  | _, _, .collect index hl hrest hacc hitem =>
    .collect index (hl.mono hT hπ) (valuesAkin_mono hT hπ hrest) (hacc.mono hT hπ)
      (hitem.mono hT hπ)
  | _, _, .remember key hij hk => .remember key (hπ _ _ hij) (hk.mono hT hπ)
  | _, _, .drawn address hk hf => .drawn address (hk.mono hT hπ) (hf.mono hT hπ)
  | _, _, .scored address hk hv => .scored address (hk.mono hT hπ) (hv.mono hT hπ)
  | _, _, .weighted hk hv => .weighted (hk.mono hT hπ) (hv.mono hT hπ)
  | _, _, .leave hij => .leave (hπ _ _ hij)

theorem Loop.Akin.mono (hT : T ≤ U) (hπ : π ≤ ρ) : ∀ {l l' : Loop}, l.Akin T π l' → l.Akin U ρ l'
  | _, _, .gather how address hk hf => .gather how address (hk.mono hT hπ) (hf.mono hT hπ)
  | _, _, .weigh address base hij hk hd hf hstore =>
    .weigh address base (hπ _ _ hij) (hk.mono hT hπ) (distAkin_mono hT hπ hd) (hf.mono hT hπ)
      (fieldsAkin_mono hT hπ hstore)

end

end Mono

end Chance
