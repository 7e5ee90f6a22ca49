import Chance.Proofs.Likeness.Simulation
import Chance.Proofs.Machine.Scopes
import Chance.Proofs.Renaming.Syntax

/-!
# Values up to the names in code

Two values are the same up to the names in the code of their functions if every function of the one
is a renamed function of the other. Each function has a renaming of its own, under which the scopes
it was made in correspond for all names that its code may look up.

- `Value.Renamed`, `Cont.Renamed`, `Loop.Renamed`: such values,
- `renamed_semblance`: they look alike,
- `Value.Renamed.refl`: nothing has to be renamed,
- `Value.isNameless`: values whose texts show no name of a function, so that renaming keeps them.
-/

namespace Chance

/-! ## Renamed values -/

mutual

/-- Values that are the same up to the names in the code of functions. -/
inductive Value.Renamed : Value → Value → Prop
  | undefined : Value.Renamed .undefined .undefined
  | null : Value.Renamed .null .null
  | bool (b : Bool) : Value.Renamed (.bool b) (.bool b)
  | num (x : Float) : Value.Renamed (.num x) (.num x)
  | str (s : String) : Value.Renamed (.str s) (.str s)
  | array {vs ws : List Value} :
      List.Forall₂ Value.Renamed vs ws → Value.Renamed (.array vs) (.array ws)
  | object {fs gs : List (String × Value)} :
      List.Forall₂ (FieldLike Value.Renamed) fs gs → Value.Renamed (.object fs) (.object gs)
  | closure (i : Nat) {σ : String → String} {X : Set String} {name : Option String}
      {params : List String} {body : List Stmt} {env env' : List (List (String × Value))} :
      IsRenaming σ → StmtsAvoid body (X \ boundBy name params) →
      (∀ x, x ∉ X → Option.Rel Value.Renamed (Env.lookup? env x) (Env.lookup? env' (σ x))) →
      Value.Renamed (.closure i name params body env)
        (.closure i (name.map σ) (params.map σ) (renameStmts σ body) env')
  | primitive (p : Primitive) : Value.Renamed (.primitive p) (.primitive p)
  | builtin (b : Builtin) : Value.Renamed (.builtin b) (.builtin b)
  | cached (i : Nat) {f g : Value} : Value.Renamed f g → Value.Renamed (.cached i f) (.cached i g)
  | cont (i : Nat) {c d : Cont} : Cont.Renamed c d → Value.Renamed (.cont i c) (.cont i d)
  | dist (i : Nat) {d e : Dist} : DistLike Value.Renamed d e → d.texts = e.texts →
      Value.Renamed (.dist i d) (.dist i e)

inductive Cont.Renamed : Cont → Cont → Prop
  | exit : Cont.Renamed .exit .exit
  | collect {l l' : Loop} {rest rest' : List Value} {acc acc' item item' : Value} (index : Nat) :
      Loop.Renamed l l' → List.Forall₂ Value.Renamed rest rest' → Value.Renamed acc acc' →
      Value.Renamed item item' → rest.map l.scoreOf = rest'.map l'.scoreOf →
      l.scoreOf item = l'.scoreOf item' →
      Cont.Renamed (.collect l index rest acc item) (.collect l' index rest' acc' item')
  | remember {k k' : Value} (table : Nat) (key : String) :
      Value.Renamed k k' → Cont.Renamed (.remember table key k) (.remember table key k')
  | drawn {k k' f f' : Value} (address : String) :
      Value.Renamed k k' → Value.Renamed f f' →
      Cont.Renamed (.drawn k address f) (.drawn k' address f')
  | scored {k k' v v' : Value} (address : String) :
      Value.Renamed k k' → Value.Renamed v v' →
      Cont.Renamed (.scored k address v) (.scored k' address v')
  | weighted {k k' v v' : Value} :
      Value.Renamed k k' → Value.Renamed v v' → Cont.Renamed (.weighted k v) (.weighted k' v')
  | leave (i : Nat) : Cont.Renamed (.leave i) (.leave i)

inductive Loop.Renamed : Loop → Loop → Prop
  | gather {k k' f f' : Value} (how : Gather) (address : String) :
      Value.Renamed k k' → Value.Renamed f f' →
      Loop.Renamed (.gather how k address f) (.gather how k' address f')
  | weigh {k k' f f' : Value} {d e : Dist} {store store' : List (String × Value)} (i : Nat)
      (address : String) (base : Float) :
      Value.Renamed k k' → DistLike Value.Renamed d e → Value.Renamed f f' →
      List.Forall₂ (FieldLike Value.Renamed) store store' →
      Loop.Renamed (.weigh i k address d f store base) (.weigh i k' address e f' store' base)

end

/-- Scopes that correspond under a renaming, as far as names outside the set go. -/
def EnvRenamed (σ : String → String) (X : Set String) (env env' : Env) : Prop :=
  ∀ x, x ∉ X → Option.Rel Value.Renamed (env.lookup? x) (env'.lookup? (σ x))

abbrev StoreRenamed (s t : Store) : Prop :=
  List.Forall₂ (FieldLike Value.Renamed) s t

theorem renamed_semblance : Semblance Value.Renamed where
  layer := by
    intro v w h
    cases h with
    | undefined => exact .undefined
    | null => exact .null
    | bool b => exact .bool b
    | num x => exact .num x
    | str s => exact .str s
    | array hs => exact .array hs
    | object hs => exact .object hs
    | closure => exact .closure
    | primitive p => exact .primitive p
    | builtin b => exact .builtin b
    | cached => exact .cached
    | cont => exact .cont
    | dist i hd => exact .dist hd
  data := by
    intro v w h hid
    cases h with
    | undefined => exact .undefined
    | null => exact .null
    | bool b => exact .bool b
    | num x => exact .num x
    | str s => exact .str s
    | array hs => exact .array hs
    | object hs => exact .object hs
    | primitive p => exact .primitive p
    | builtin b => exact .builtin b
    | closure | cached | cont | dist => cases hid
  unique := by
    have same {v w : Value} {i j : Nat} (h : v.Renamed w) (hi : v.id? = some i)
        (hj : w.id? = some j) : i = j := by
      cases h <;> cases hi <;> cases hj <;> rfl
    intro v w v' w' i j i' j' h h' hi hj hi' hj'
    rw [same h hi hj, same h' hi' hj']
  texts := by
    intro i j d e h
    cases h with
    | dist _ _ htexts => exact htexts

/-! ## Nothing renamed -/

mutual

theorem Value.Renamed.refl : ∀ v : Value, v.Renamed v
  | .undefined => .undefined
  | .null => .null
  | .bool b => .bool b
  | .num x => .num x
  | .str s => .str s
  | .array vs => .array (List.forall₂_same.2 (valuesRenamed_refl vs))
  | .object fs => .object (List.forall₂_same.2 fun f hf => ⟨fieldsRenamed_refl fs f hf⟩)
  | .closure i name params body env => by
    have hscopes (x : String) (_ : x ∉ (∅ : Set String)) :=
      lookup?_rel (framesRenamed_refl env) x
    have hclosure : Value.Renamed (.closure i name params body env)
        (.closure i (name.map id) (params.map id) (renameStmts id body) env) :=
      .closure i isRenaming_id (stmtsAvoid_anti (stmtsAvoid_empty body) Set.sdiff_subset) hscopes
    rwa [renameStmts_id, Option.map_id, List.map_id] at hclosure
  | .primitive p => .primitive p
  | .builtin b => .builtin b
  | .cached i f => .cached i (Value.Renamed.refl f)
  | .cont i c => .cont i (Cont.Renamed.refl c)
  | .dist i d => .dist i (distRenamed_refl d) rfl

theorem valuesRenamed_refl : ∀ vs : List Value, ∀ v ∈ vs, v.Renamed v
  | [] => nofun
  | v :: vs => List.forall_mem_cons.2 ⟨Value.Renamed.refl v, valuesRenamed_refl vs⟩

theorem fieldsRenamed_refl : ∀ fs : List (String × Value), ∀ f ∈ fs, f.2.Renamed f.2
  | [] => nofun
  | (_, v) :: fs => List.forall_mem_cons.2 ⟨Value.Renamed.refl v, fieldsRenamed_refl fs⟩

theorem framesRenamed_refl :
    ∀ env : List (List (String × Value)), ∀ frame ∈ env, ∀ b ∈ frame, b.2.Renamed b.2
  | [] => nofun
  | frame :: env => List.forall_mem_cons.2 ⟨fieldsRenamed_refl frame, framesRenamed_refl env⟩

theorem sharesRenamed_refl : ∀ es : List (String × Value × Float), ∀ e ∈ es, e.2.1.Renamed e.2.1
  | [] => nofun
  | (_, v, _) :: es => List.forall_mem_cons.2 ⟨Value.Renamed.refl v, sharesRenamed_refl es⟩

theorem distRenamed_refl : ∀ d : Dist, DistLike Value.Renamed d d
  | .bernoulli p => .bernoulli p
  | .randomInteger n => .randomInteger n
  | .categorical ps vs => .categorical ps (List.forall₂_same.2 (valuesRenamed_refl vs))
  | .discrete ps => .discrete ps
  | .binomial p n => .binomial p n
  | .delta v => .delta (Value.Renamed.refl v)
  | .uniform a b => .uniform a b
  | .gaussian mu sigma => .gaussian mu sigma
  | .marginal es => .marginal (List.forall₂_same.2 fun e he => ⟨sharesRenamed_refl es e he⟩)

theorem Cont.Renamed.refl : ∀ c : Cont, c.Renamed c
  | .exit => .exit
  | .collect l index rest acc item =>
    .collect index (Loop.Renamed.refl l) (List.forall₂_same.2 (valuesRenamed_refl rest))
      (Value.Renamed.refl acc) (Value.Renamed.refl item) rfl rfl
  | .remember table key k => .remember table key (Value.Renamed.refl k)
  | .drawn k a f => .drawn a (Value.Renamed.refl k) (Value.Renamed.refl f)
  | .scored k a v => .scored a (Value.Renamed.refl k) (Value.Renamed.refl v)
  | .weighted k v => .weighted (Value.Renamed.refl k) (Value.Renamed.refl v)
  | .leave i => .leave i

theorem Loop.Renamed.refl : ∀ l : Loop, l.Renamed l
  | .gather how k a f => .gather how a (Value.Renamed.refl k) (Value.Renamed.refl f)
  | .weigh i k a d f store base =>
    .weigh i a base (Value.Renamed.refl k) (distRenamed_refl d) (Value.Renamed.refl f)
      (List.forall₂_same.2 fun x hx => ⟨fieldsRenamed_refl store x hx⟩)

end

theorem StoreRenamed.refl (s : Store) : StoreRenamed s s :=
  List.forall₂_same.2 fun _ _ => ⟨.refl _⟩

/-! ## Texts -/

mutual

/-- Whether the text of the value shows no name of a function of the program. -/
def Value.isNameless : Value → Bool
  | .closure _ name _ _ _ => name.isNone
  | .array vs => valuesNameless vs
  | .object fs => entriesNameless fs
  | _ => true
termination_by structural v => v

def valuesNameless : List Value → Bool
  | [] => true
  | v :: vs => v.isNameless && valuesNameless vs
termination_by structural vs => vs

def entriesNameless : List (String × Value) → Bool
  | [] => true
  | (_, v) :: fs => v.isNameless && entriesNameless fs
termination_by structural fs => fs

end

theorem Cont.Renamed.name_eq {c d : Cont} (h : c.Renamed d) : c.name = d.name := by
  cases h with
  | collect _ hl =>
    cases hl with
    | gather how => cases how <;> rfl
    | weigh => rfl
  | _ => rfl

mutual

theorem Value.Renamed.text_eq :
    ∀ {v w : Value}, v.Renamed w → v.isNameless = true → v.text = w.text
  | .undefined, _, h, _ => by cases h; rfl
  | .null, _, h, _ => by cases h; rfl
  | .bool _, _, h, _ => by cases h; rfl
  | .num _, _, h, _ => by cases h; rfl
  | .str _, _, h, _ => by cases h; rfl
  | .primitive _, _, h, _ => by cases h; rfl
  | .builtin _, _, h, _ => by cases h; rfl
  | .cached _ _, _, h, _ => by cases h; rfl
  | .array vs, _, h, hn => by
    cases h with
    | array hs => rw [Value.text, Value.text, valueTexts_renamed hs hn]
  | .object fs, _, h, hn => by
    cases h with
    | object hs => rw [Value.text, Value.text, entryTexts_renamed hs hn]
  | .closure _ name _ _ _, _, h, hn => by
    obtain rfl := Option.isNone_iff_eq_none.1 hn
    cases h; rfl
  | .cont _ _, _, h, _ => by
    cases h with
    | cont _ hc => rw [Value.text, Value.text, hc.name_eq]
  | .dist _ _, _, h, _ => by
    cases h with
    | dist _ hd _ => cases hd <;> rfl

theorem valueTexts_renamed :
    ∀ {vs ws : List Value}, List.Forall₂ Value.Renamed vs ws → valuesNameless vs = true →
      valueTexts vs = valueTexts ws
  | [], _, h, _ => by cases h; rfl
  | v :: vs, _, h, hn => by
    rw [valuesNameless, Bool.and_eq_true] at hn
    cases h with
    | cons hv hs => rw [valueTexts, valueTexts, hv.text_eq hn.1, valueTexts_renamed hs hn.2]

theorem entryTexts_renamed :
    ∀ {fs gs : List (String × Value)}, StoreRenamed fs gs → entriesNameless fs = true →
      entryTexts fs = entryTexts gs
  | [], _, h, _ => by cases h; rfl
  | (_, v) :: fs, _, h, hn => by
    rw [entriesNameless, Bool.and_eq_true] at hn
    cases h with
    | cons hf hs =>
      obtain ⟨hv⟩ := hf
      rw [entryTexts, entryTexts, hv.text_eq hn.1, entryTexts_renamed hs hn.2]

end

theorem Value.Renamed.key_eq {v w : Value} (h : v.Renamed w) (hn : v.isNameless = true) :
    v.key = w.key :=
  renamed_semblance.key_eq h (h.text_eq hn)

theorem keys_renamed {vs ws : List Value} (h : List.Forall₂ Value.Renamed vs ws)
    (hn : vs.all Value.isNameless = true) : vs.map Value.key = ws.map Value.key := by
  induction h with
  | nil => rfl
  | cons hv _ ih =>
    rw [List.all_cons, Bool.and_eq_true] at hn
    rw [List.map_cons, List.map_cons, hv.key_eq hn.1, ih hn.2]

end Chance
