import Mathlib.Data.List.Forall2
import Chance.Machine.Primitive

/-!
# Layers of values

Two values look alike under a relation if they are the same data around related parts and their
identities tell the same things apart; functions of the program may differ in everything else, also
in their names. What is computed in place can tell such values from one another only by their texts:
where no text of a function is taken, related operands give related results or errors of one kind.

- `Sketch`: one layer of two values that look alike,
- `Semblance`: a relation between values that goes layer by layer,
- `Agree`: both of two computations succeed with related results, or both fail alike.
-/

namespace Chance

/-- Errors that say that the code itself is not of the form that the machine can run. -/
def Error.isMalformed : Error → Bool
  | .compile .. => true
  | .type .notAssignable => true
  | _ => false

/-- The identity of a value that has one. -/
def Value.id? : Value → Option Nat
  | .closure i .. => some i
  | .cached i _ => some i
  | .cont i _ => some i
  | .dist i _ => some i
  | _ => none

/-- Fields with equal keys and related values. -/
inductive FieldLike (R : Value → Value → Prop) : String × Value → String × Value → Prop
  | mk {k : String} {v w : Value} : R v w → FieldLike R (k, v) (k, w)

/-- Entries of a marginal with equal keys, related values and equal probabilities. -/
inductive ShareLike (R : Value → Value → Prop) :
    String × Value × Float → String × Value × Float → Prop
  | mk {k : String} {v w : Value} {p : Float} : R v w → ShareLike R (k, v, p) (k, w, p)

/-- The same distribution over related values. -/
inductive DistLike (R : Value → Value → Prop) : Dist → Dist → Prop
  | bernoulli (p : Float) : DistLike R (.bernoulli p) (.bernoulli p)
  | randomInteger (n : Nat) : DistLike R (.randomInteger n) (.randomInteger n)
  | categorical (ps : List Float) {vs ws : List Value} :
      List.Forall₂ R vs ws → DistLike R (.categorical ps vs) (.categorical ps ws)
  | discrete (ps : List Float) : DistLike R (.discrete ps) (.discrete ps)
  | binomial (p : Float) (n : Nat) : DistLike R (.binomial p n) (.binomial p n)
  | delta {v w : Value} : R v w → DistLike R (.delta v) (.delta w)
  | uniform (a b : Float) : DistLike R (.uniform a b) (.uniform a b)
  | gaussian (mu sigma : Float) : DistLike R (.gaussian mu sigma) (.gaussian mu sigma)
  | marginal {es fs : List (String × Value × Float)} :
      List.Forall₂ (ShareLike R) es fs → DistLike R (.marginal es) (.marginal fs)

/-- Fields with the given keys and values, added to those before them. -/
def addFields (before : List (String × Value)) (keys : List String) (vs : List Value) :
    List (String × Value) :=
  (keys.zip vs).foldl (fun fields kv => setField fields kv.1 kv.2) before

/-- One layer of two values that look alike. -/
inductive Sketch (R : Value → Value → Prop) : Value → Value → Prop
  | undefined : Sketch R .undefined .undefined
  | null : Sketch R .null .null
  | bool (b : Bool) : Sketch R (.bool b) (.bool b)
  | num (x : Float) : Sketch R (.num x) (.num x)
  | str (s : String) : Sketch R (.str s) (.str s)
  | array {vs ws : List Value} : List.Forall₂ R vs ws → Sketch R (.array vs) (.array ws)
  | object {fs gs : List (String × Value)} :
      List.Forall₂ (FieldLike R) fs gs → Sketch R (.object fs) (.object gs)
  | primitive (p : Primitive) : Sketch R (.primitive p) (.primitive p)
  | builtin (b : Builtin) : Sketch R (.builtin b) (.builtin b)
  | closure {i j : Nat} {name name' : Option String} {ps qs : List String} {b c : List Stmt}
      {env env' : Env} : Sketch R (.closure i name ps b env) (.closure j name' qs c env')
  | cached {i j : Nat} {f g : Value} : Sketch R (.cached i f) (.cached j g)
  | cont {i j : Nat} {c d : Cont} : Sketch R (.cont i c) (.cont j d)
  | dist {i j : Nat} {d e : Dist} : DistLike R d e → Sketch R (.dist i d) (.dist j e)

/-- The texts of the values that a distribution finds by their texts. -/
def Dist.texts : Dist → List String
  | .marginal es => es.map fun e => e.2.1.text
  | _ => []

/-- Distributions over related values, which they find alike. -/
structure DistAlike (R : Value → Value → Prop) (d e : Dist) : Prop where
  like : DistLike R d e
  texts : d.texts = e.texts

/-- A relation that goes layer by layer, holds wherever a layer of data allows it, and relates
identities one to one. -/
structure Semblance (R : Value → Value → Prop) : Prop where
  layer : ∀ {v w : Value}, R v w → Sketch R v w
  data : ∀ {v w : Value}, Sketch R v w → v.id? = none → R v w
  unique : ∀ {v w v' w' : Value} {i j i' j' : Nat}, R v w → R v' w' →
    v.id? = some i → w.id? = some j → v'.id? = some i' → w'.id? = some j' → (i = i' ↔ j = j')
  texts : ∀ {i j : Nat} {d e : Dist}, R (.dist i d) (.dist j e) → d.texts = e.texts

namespace FieldLike

variable {R : Value → Value → Prop} {f g : String × Value}

theorem key (h : FieldLike R f g) : f.1 = g.1 := by
  cases h; rfl

theorem value (h : FieldLike R f g) : R f.2 g.2 := by
  cases h; assumption

end FieldLike

namespace ShareLike

variable {R : Value → Value → Prop} {e f : String × Value × Float}

theorem key (h : ShareLike R e f) : e.1 = f.1 := by
  cases h; rfl

theorem value (h : ShareLike R e f) : R e.2.1 f.2.1 := by
  cases h; assumption

theorem prob (h : ShareLike R e f) : e.2.2 = f.2.2 := by
  cases h; rfl

end ShareLike

theorem FieldLike.imp {R S : Value → Value → Prop} {f g : String × Value} (h : FieldLike R f g)
    (hRS : ∀ {v w}, R v w → S v w) : FieldLike S f g := by
  obtain ⟨hv⟩ := h
  exact ⟨hRS hv⟩

theorem DistLike.imp {R S : Value → Value → Prop} {d e : Dist} (h : DistLike R d e)
    (hRS : ∀ {v w}, R v w → S v w) : DistLike S d e := by
  cases h with
  | categorical ps hs => exact .categorical ps (hs.imp fun _ _ => hRS)
  | delta hv => exact .delta (hRS hv)
  | marginal hs =>
    refine .marginal (hs.imp ?_)
    rintro _ _ ⟨hv⟩
    exact ⟨hRS hv⟩
  | bernoulli p => exact .bernoulli p
  | randomInteger n => exact .randomInteger n
  | discrete ps => exact .discrete ps
  | binomial p n => exact .binomial p n
  | uniform a b => exact .uniform a b
  | gaussian mu sigma => exact .gaussian mu sigma

/-! ## Agreement -/

/-- What went wrong, without the particulars. -/
inductive Error.Kind where
  | lex
  | parse
  | compile
  | noSupport
  | emptySupport
  | zeroProbability
  | factorOutsideInference
  | options
  | type
  | unbound
  | stale
  | cancelled
deriving DecidableEq, Repr

def Error.kind : Error → Error.Kind
  | lex .. => .lex
  | parse .. => .parse
  | compile .. => .compile
  | noSupport _ => .noSupport
  | emptySupport _ => .emptySupport
  | zeroProbability => .zeroProbability
  | factorOutsideInference => .factorOutsideInference
  | options .. => .options
  | type _ => .type
  | unbound _ => .unbound
  | stale _ => .stale
  | cancelled => .cancelled

/-- Both succeed with related results, or both fail with related errors. -/
inductive Agree {α β : Type} (E : Error → Error → Prop) (Q : α → β → Prop) :
    Except Error α → Except Error β → Prop
  | ok {a : α} {b : β} : Q a b → Agree E Q (.ok a) (.ok b)
  | error {e e' : Error} : E e e' → Agree E Q (.error e) (.error e')

/-- Errors of one kind. -/
def Error.SameKind (e e' : Error) : Prop :=
  e.kind = e'.kind

/-- Errors of one kind that well-formed code may raise. They are the same where related values have
the same texts. -/
structure Error.SameFault (R : Value → Value → Prop) (e e' : Error) : Prop where
  kind : e.kind = e'.kind
  proper : e.isMalformed = false
  same : (∀ {v w : Value}, R v w → v.text = w.text) → e = e'

namespace Error.SameFault

variable {R : Value → Value → Prop}

theorem refl {e : Error} (h : e.isMalformed = false) : e.SameFault R e :=
  ⟨rfl, h, fun _ => rfl⟩

theorem text {v w : Value} (h : R v w) (error : String → Error)
    (hkind : ∀ s t, (error s).kind = (error t).kind)
    (hproper : ∀ s, (error s).isMalformed = false) :
    (error v.text).SameFault R (error w.text) where
  kind := hkind _ _
  proper := hproper _
  same := fun htext => by rw [htext h]

end Error.SameFault

namespace Agree

variable {E : Error → Error → Prop} {α β γ δ : Type} {Q : α → β → Prop} {S : γ → δ → Prop}
  {x : Except Error α} {y : Except Error β}

theorem bind {f : α → Except Error γ} {g : β → Except Error δ} (h : Agree E Q x y)
    (k : ∀ a b, Q a b → Agree E S (f a) (g b)) : Agree E S (x >>= f) (y >>= g) := by
  cases h with
  | ok hab => exact k _ _ hab
  | error he => exact .error he

theorem weaken {Q' : α → β → Prop} (h : Agree E Q x y) (k : ∀ a b, Q a b → Q' a b) :
    Agree E Q' x y := by
  cases h with
  | ok hab => exact .ok (k _ _ hab)
  | error he => exact .error he

theorem self (x : Except Error α) : Agree Error.SameKind Eq x x := by
  cases x with
  | ok a => exact .ok rfl
  | error e => exact .error rfl

theorem foldlM {f : γ → α → Except Error γ} {g : δ → β → Except Error δ} {xs : List α} {ys : List β}
    {c : γ} {d : δ} (h : List.Forall₂ Q xs ys) (hcd : S c d)
    (hfg : ∀ c d a b, S c d → Q a b → Agree E S (f c a) (g d b)) :
    Agree E S (xs.foldlM f c) (ys.foldlM g d) := by
  induction h generalizing c d with
  | nil => exact .ok hcd
  | cons hab _ ih =>
    rw [List.foldlM_cons, List.foldlM_cons]
    exact (hfg c d _ _ hcd hab).bind fun c' d' hcd' => ih hcd'

theorem mapM {f : α → Except Error γ} {g : β → Except Error δ} {xs : List α} {ys : List β}
    (h : List.Forall₂ Q xs ys) (hfg : ∀ a b, Q a b → Agree E S (f a) (g b)) :
    Agree E (List.Forall₂ S) (xs.mapM f) (ys.mapM g) := by
  induction h with
  | nil => exact .ok .nil
  | cons hab _ ih =>
    rw [List.mapM_cons, List.mapM_cons]
    exact (hfg _ _ hab).bind fun c d hcd => ih.bind fun cs ds hs => .ok (.cons hcd hs)

end Agree

/-- Agreement of what is computed in place from related values. -/
abbrev Agrees (R : Value → Value → Prop) {α β : Type} (Q : α → β → Prop) (x : Except Error α)
    (y : Except Error β) : Prop :=
  Agree (Error.SameFault R) Q x y

/-! ## Related lists -/

section Lists

variable {α β γ : Type} {Q : α → β → Prop} {xs : List α} {ys : List β} {p : α → Bool} {q : β → Bool}
  {a : α} {b : β} {x : Option α} {y : Option β}

theorem find?_rel (h : List.Forall₂ Q xs ys) (hpq : ∀ a b, Q a b → p a = q b) :
    Option.Rel Q (xs.find? p) (ys.find? q) := by
  induction h with
  | nil => exact .none
  | @cons a b as bs hab _ ih =>
    rw [List.find?_cons, List.find?_cons, hpq a b hab]
    cases q b with
    | true => exact .some hab
    | false => exact ih

theorem filter_rel (h : List.Forall₂ Q xs ys) (hpq : ∀ a b, Q a b → p a = q b) :
    List.Forall₂ Q (xs.filter p) (ys.filter q) := by
  induction h with
  | nil => exact .nil
  | @cons a b as bs hab _ ih =>
    rw [List.filter_cons, List.filter_cons, hpq a b hab]
    cases q b with
    | true => exact .cons hab ih
    | false => exact ih

theorem map_eq_of_forall₂ {f : α → γ} {g : β → γ} (h : List.Forall₂ Q xs ys)
    (hfg : ∀ a b, Q a b → f a = g b) : xs.map f = ys.map g := by
  induction h with
  | nil => rfl
  | cons hab _ ih => rw [List.map_cons, List.map_cons, hfg _ _ hab, ih]

theorem getElem?_rel (h : List.Forall₂ Q xs ys) (i : Nat) : Option.Rel Q xs[i]? ys[i]? := by
  induction h generalizing i with
  | nil => exact .none
  | cons hab _ ih =>
    cases i with
    | zero => exact .some hab
    | succ i => exact ih i

theorem set_rel (h : List.Forall₂ Q xs ys) (i : Nat) (hab : Q a b) :
    List.Forall₂ Q (xs.set i a) (ys.set i b) := by
  induction h generalizing i with
  | nil => exact .nil
  | cons hcd hs ih =>
    cases i with
    | zero => exact .cons hab hs
    | succ i => exact .cons hcd (ih i)

theorem optionMap_rel {δ : Type} {S : γ → δ → Prop} {f : α → γ} {g : β → δ} (h : Option.Rel Q x y)
    (hfg : ∀ a b, Q a b → S (f a) (g b)) : Option.Rel S (x.map f) (y.map g) := by
  cases h with
  | none => exact .none
  | some hab => exact .some (hfg _ _ hab)

theorem optionGetD_rel (h : Option.Rel Q x y) (hab : Q a b) : Q (x.getD a) (y.getD b) := by
  cases h with
  | none => exact hab
  | some h => exact h

end Lists

namespace Semblance

variable {R : Value → Value → Prop}

/-! ## Data -/

section Data

variable (L : Semblance R)
include L

theorem undefined : R .undefined .undefined := L.data .undefined rfl

theorem bool (b : Bool) : R (.bool b) (.bool b) := L.data (.bool b) rfl

theorem num (x : Float) : R (.num x) (.num x) := L.data (.num x) rfl

theorem str (s : String) : R (.str s) (.str s) := L.data (.str s) rfl

theorem array {vs ws : List Value} (h : List.Forall₂ R vs ws) : R (.array vs) (.array ws) :=
  L.data (.array h) rfl

theorem object {fs gs : List (String × Value)} (h : List.Forall₂ (FieldLike R) fs gs) :
    R (.object fs) (.object gs) :=
  L.data (.object h) rfl

end Data

/-! ## What cannot be told apart -/

mutual

theorem same_eq (L : Semblance R) :
    ∀ (v w v' w' : Value), R v w → R v' w' → v.same v' = w.same w'
  | .array vs, _, v', w', h, h' => by
    cases L.layer h with
    | array hs =>
      cases L.layer h' with
      | array hs' => rw [Value.same, Value.same, sameValues_eq L vs _ _ _ hs hs']
      | _ => rfl
  | .object fs, _, v', w', h, h' => by
    cases L.layer h with
    | object hs =>
      cases L.layer h' with
      | object hs' => rw [Value.same, Value.same, sameEntries_eq L fs _ _ _ hs hs']
      | _ => rfl
  | .undefined, _, v', w', h, h' => by cases L.layer h; cases L.layer h' <;> rfl
  | .null, _, v', w', h, h' => by cases L.layer h; cases L.layer h' <;> rfl
  | .bool _, _, v', w', h, h' => by cases L.layer h; cases L.layer h' <;> rfl
  | .num _, _, v', w', h, h' => by cases L.layer h; cases L.layer h' <;> rfl
  | .str _, _, v', w', h, h' => by cases L.layer h; cases L.layer h' <;> rfl
  | .primitive _, _, v', w', h, h' => by cases L.layer h; cases L.layer h' <;> rfl
  | .builtin _, _, v', w', h, h' => by cases L.layer h; cases L.layer h' <;> rfl
  | .closure .., _, v', w', h, h' => by
    cases L.layer h
    cases L.layer h' with
    | closure =>
      have hiff := L.unique h h' rfl rfl rfl rfl
      simp only [Value.same, beq_eq_beq, hiff]
    | _ => rfl
  | .cached .., _, v', w', h, h' => by
    cases L.layer h
    cases L.layer h' with
    | cached =>
      have hiff := L.unique h h' rfl rfl rfl rfl
      simp only [Value.same, beq_eq_beq, hiff]
    | _ => rfl
  | .cont .., _, v', w', h, h' => by
    cases L.layer h
    cases L.layer h' with
    | cont =>
      have hiff := L.unique h h' rfl rfl rfl rfl
      simp only [Value.same, beq_eq_beq, hiff]
    | _ => rfl
  | .dist .., _, v', w', h, h' => by
    cases L.layer h
    cases L.layer h' with
    | dist _ =>
      have hiff := L.unique h h' rfl rfl rfl rfl
      simp only [Value.same, beq_eq_beq, hiff]
    | _ => rfl
termination_by structural v => v

theorem sameValues_eq (L : Semblance R) :
    ∀ (vs ws vs' ws' : List Value), List.Forall₂ R vs ws → List.Forall₂ R vs' ws' →
      sameValues vs vs' = sameValues ws ws'
  | [], _, vs', ws', h, h' => by cases h; cases h' <;> rfl
  | v :: vs, _, vs', ws', h, h' => by
    cases h with
    | cons hv hs =>
      cases h' with
      | nil => rfl
      | cons hv' hs' =>
        rw [sameValues, sameValues, same_eq L v _ _ _ hv hv', sameValues_eq L vs _ _ _ hs hs']
termination_by structural vs => vs

theorem sameEntries_eq (L : Semblance R) :
    ∀ (fs gs fs' gs' : List (String × Value)), List.Forall₂ (FieldLike R) fs gs →
      List.Forall₂ (FieldLike R) fs' gs' → sameEntries fs fs' = sameEntries gs gs'
  | [], _, fs', gs', h, h' => by cases h; cases h' <;> rfl
  | (k, v) :: fs, _, fs', gs', h, h' => by
    cases h with
    | cons hf hs =>
      obtain ⟨hv⟩ := hf
      cases h' with
      | nil => rfl
      | cons hf' hs' =>
        obtain ⟨hv'⟩ := hf'
        rw [sameEntries, sameEntries, same_eq L v _ _ _ hv hv', sameEntries_eq L fs _ _ _ hs hs']
termination_by structural fs => fs

end

section Operations

variable (L : Semblance R) {v v' w w' : Value}
include L

theorem key_eq (h : R v w) (htext : v.text = w.text) : v.key = w.key := by
  cases L.layer h <;> first | rfl | exact htext

theorem truthy_eq (h : R v w) : v.truthy = w.truthy := by
  cases L.layer h <;> rfl

theorem isCallable_eq (h : R v w) : v.isCallable = w.isCallable := by
  cases L.layer h <;> rfl

theorem looselySame_eq (h : R v w) (h' : R v' w') : v.looselySame v' = w.looselySame w' := by
  have hsame := L.same_eq v w v' w' h h'
  have hnull : ∀ {v w}, R v w → v.isNullish = w.isNullish := by
    intro v w h
    cases L.layer h <;> rfl
  have hnum : ∀ {v w}, R v w → v.scalarNumber = w.scalarNumber := by
    intro v w h
    cases L.layer h <;> rfl
  have hmixed : v.areMixedScalars v' = w.areMixedScalars w' := by
    cases L.layer h <;> cases L.layer h' <;> rfl
  rw [Value.looselySame, Value.looselySame, hnull h, hnull h', hnum h, hnum h', hmixed, hsame]

/-! ## Values taken as something -/

theorem typeName_eq (h : R v w) : v.typeName = w.typeName := by
  cases L.layer h <;> rfl

theorem unexpected (wanted : Wanted) (h : R v w) :
    (Error.unexpected wanted v).SameFault R (.unexpected wanted w) where
  kind := rfl
  proper := rfl
  same := fun htext => by rw [Error.unexpected, Error.unexpected, htext h, L.typeName_eq h]

theorem toNumber (h : R v w) : Agrees R Eq v.toNumber w.toNumber := by
  have hfault := L.unexpected .number h
  cases L.layer h <;> first | exact .ok rfl | exact .error hfault

theorem toItems {v w : Value} (h : R v w) : Agrees R (List.Forall₂ R) v.toItems w.toItems := by
  have hfault := L.unexpected .array h
  cases L.layer h with
  | array hs => exact .ok hs
  | _ => exact .error hfault

theorem toDist {v w : Value} (h : R v w) : Agrees R (DistAlike R) v.toDist w.toDist := by
  have hfault := L.unexpected .distribution h
  cases L.layer h with
  | dist hd => exact .ok ⟨hd, L.texts h⟩
  | _ => exact .error hfault

theorem toAddress (h : R v w) : Agrees R Eq v.toAddress w.toAddress := by
  have hfault : (Error.type (.notAddress v.text)).SameFault R (.type (.notAddress w.text)) :=
    .text h (fun s => .type (.notAddress s)) (fun _ _ => rfl) fun _ => rfl
  cases L.layer h <;> first | exact .ok rfl | exact .error hfault

/-! ## Fields, operators and members -/

theorem get {v w : Value} (h : R v w) (key : String) : R (v.get key) (w.get key) := by
  cases L.layer h with
  | object hs =>
    have hfind : Option.Rel (FieldLike R) _ _ :=
      find?_rel (p := fun f => f.1 == key) (q := fun f => f.1 == key) hs
        fun f g hfg => by rw [hfg.key]
    exact optionGetD_rel (optionMap_rel hfind fun f g hfg => hfg.value) L.undefined
  | _ => exact L.undefined

omit L in
theorem setField {fs gs : List (String × Value)} {v w : Value}
    (hs : List.Forall₂ (FieldLike R) fs gs) (key : String) (h : R v w) :
    List.Forall₂ (FieldLike R) (setField fs key v) (setField gs key w) := by
  induction hs with
  | nil => exact .cons ⟨h⟩ .nil
  | cons hfg hs ih =>
    obtain ⟨hv'⟩ := hfg
    simp only [Chance.setField]
    split_ifs
    · exact .cons ⟨h⟩ hs
    · exact .cons ⟨h⟩ (.cons ⟨hv'⟩ hs)
    · exact .cons ⟨hv'⟩ ih

omit L in
theorem addFields {vs ws : List Value} (h : List.Forall₂ R vs ws) :
    ∀ (keys : List String) {before before' : List (String × Value)},
    List.Forall₂ (FieldLike R) before before' →
    List.Forall₂ (FieldLike R) (addFields before keys vs) (addFields before' keys ws) := by
  induction h with
  | nil =>
    intro keys before before' hbefore
    simpa only [Chance.addFields, List.zip_nil_right, List.foldl_nil] using hbefore
  | cons hv _ ih =>
    intro keys before before' hbefore
    cases keys with
    | nil => exact hbefore
    | cons k keys => exact ih keys (setField hbefore k hv)

theorem arithmetic (f : Float → Float → Float) (h : R v w) (h' : R v' w') :
    Agrees R R (v.arithmetic f v') (w.arithmetic f w') := by
  refine (L.toNumber h).bind ?_
  rintro x _ rfl
  refine (L.toNumber h').bind ?_
  rintro y _ rfl
  exact .ok (L.num _)

theorem order {v w v' w' : Value} (h : R v w) (h' : R v' w') :
    Agrees R Eq (v.order v') (w.order w') := by
  have hnumbers : Agrees R Eq
      (do let x ← v.toNumber
          let y ← v'.toNumber
          return if x < y then some Ordering.lt else if x == y then some .eq
            else if x > y then some .gt else none)
      (do let x ← w.toNumber
          let y ← w'.toNumber
          return if x < y then some Ordering.lt else if x == y then some .eq
            else if x > y then some .gt else none) := by
    refine (L.toNumber h).bind ?_
    rintro x _ rfl
    refine (L.toNumber h').bind ?_
    rintro y _ rfl
    exact .ok rfl
  cases L.layer h with
  | str s =>
    cases L.layer h' with
    | str t => exact .ok rfl
    | _ => exact hnumbers
  | _ => exact hnumbers

theorem plus {v w v' w' : Value} (h : R v w) (h' : R v' w')
    (hkey : ∀ s, v' = .str s → v.key = w.key) (hkey' : ∀ s, v = .str s → v'.key = w'.key) :
    Agrees R R (v.plus v') (w.plus w') := by
  have hsum := L.arithmetic (· + ·) h h'
  cases L.layer h with
  | str s =>
    simp only [Value.plus, hkey' s rfl]
    exact .ok (L.str _)
  | _ =>
    cases L.layer h' with
    | str t =>
      simp only [Value.plus, hkey t rfl]
      exact .ok (L.str _)
    | _ => exact hsum

theorem isOneOf (o : Option Ordering) (orders : List Ordering) :
    R (isOneOf o orders) (isOneOf o orders) :=
  L.bool _

theorem binary (op : BinaryOp) (h : R v w) (h' : R v' w')
    (hkey : op = .add → ∀ s, v' = .str s → v.key = w.key)
    (hkey' : op = .add → ∀ s, v = .str s → v'.key = w'.key) :
    Agrees R R (op.apply v v') (op.apply w w') := by
  have hcompare (orders : List Ordering) : Agrees R R
      (return Chance.isOneOf (← v.order v') orders)
      (return Chance.isOneOf (← w.order w') orders) := by
    refine (L.order h h').bind ?_
    rintro o _ rfl
    exact .ok (L.isOneOf o orders)
  cases op with
  | add => exact L.plus h h' (hkey rfl) (hkey' rfl)
  | sub | mul | div | mod => exact L.arithmetic _ h h'
  | lt | le | gt | ge => exact hcompare _
  | eq | ne =>
    simp only [BinaryOp.apply, L.looselySame_eq h h']
    exact .ok (L.bool _)
  | strictEq | strictNe =>
    simp only [BinaryOp.apply, L.same_eq _ _ _ _ h h']
    exact .ok (L.bool _)

theorem unary (op : UnaryOp) (h : R v w) : Agrees R R (op.apply v) (op.apply w) := by
  cases op with
  | negate | plus =>
    refine (L.toNumber h).bind ?_
    rintro x _ rfl
    exact .ok (L.num _)
  | not =>
    simp only [UnaryOp.apply, L.truthy_eq h]
    exact .ok (L.bool _)

end Operations

end Semblance

end Chance
