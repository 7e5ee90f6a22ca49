import Chance.Proofs.Likeness.Layers

/-!
# Likeness of values

Two values are alike under a relation if they look alike and functions of the program go by the same
names. Then they have the same texts, and what is computed in place cannot tell them from one
another: related operands give related results, and any error is one that well-formed code may
raise.

- `Layer`: one layer of two alike values,
- `Likeness`: a relation between values that goes layer by layer,
- `Tracks`: the second of two computations succeeds with a related result where the first succeeds.
-/

namespace Chance

variable {α β : Type}

/-- One layer of two alike values. Of functions of the program only the names have to agree. -/
inductive Layer (R : Value → Value → Prop) : Value → Value → Prop
  | undefined : Layer R .undefined .undefined
  | null : Layer R .null .null
  | bool (b : Bool) : Layer R (.bool b) (.bool b)
  | num (x : Float) : Layer R (.num x) (.num x)
  | str (s : String) : Layer R (.str s) (.str s)
  | array {vs ws : List Value} : List.Forall₂ R vs ws → Layer R (.array vs) (.array ws)
  | object {fs gs : List (String × Value)} :
      List.Forall₂ (FieldLike R) fs gs → Layer R (.object fs) (.object gs)
  | primitive (p : Primitive) : Layer R (.primitive p) (.primitive p)
  | builtin (b : Builtin) : Layer R (.builtin b) (.builtin b)
  | closure {i j : Nat} {name : Option String} {ps qs : List String} {b c : List Stmt}
      {env env' : Env} : Layer R (.closure i name ps b env) (.closure j name qs c env')
  | cached {i j : Nat} {f g : Value} : Layer R (.cached i f) (.cached j g)
  | cont {i j : Nat} {c d : Cont} : c.name = d.name → Layer R (.cont i c) (.cont j d)
  | dist {i j : Nat} {d e : Dist} : DistLike R d e → Layer R (.dist i d) (.dist j e)

/-- A relation that goes layer by layer, holds wherever a layer of data allows it, and relates
identities one to one. -/
structure Likeness (R : Value → Value → Prop) : Prop where
  layer : ∀ {v w : Value}, R v w → Layer R v w
  data : ∀ {v w : Value}, Layer R v w → v.id? = none → R v w
  unique : ∀ {v w v' w' : Value} {i j i' j' : Nat}, R v w → R v' w' →
    v.id? = some i → w.id? = some j → v'.id? = some i' → w'.id? = some j' → (i = i' ↔ j = j')

/-- The second computation succeeds with a related result where the first succeeds; where the first
fails, it is not for the form of the code. -/
def Tracks {α β : Type} (Q : α → β → Prop) : Except Error α → Except Error β → Prop
  | .ok a, y => ∃ b, y = .ok b ∧ Q a b
  | .error e, _ => e.isMalformed = false

theorem exists_ok_of_bind {ε : Type} {x : Except ε α} {f : α → Except ε β} {b : β}
    (h : (x >>= f) = .ok b) : ∃ a, x = .ok a ∧ f a = .ok b := by
  cases x with
  | error e => cases h
  | ok a => exact ⟨a, rfl, h⟩

namespace Tracks

variable {α β γ δ : Type} {Q : α → β → Prop} {S : γ → δ → Prop} {y : Except Error β}

theorem ok {a : α} {b : β} (h : Q a b) : Tracks Q (.ok a) (.ok b) :=
  ⟨b, rfl, h⟩

theorem error {e : Error} (h : e.isMalformed = false) : Tracks Q (.error e) y :=
  h

theorem mono {Q' : α → β → Prop} {x : Except Error α} (h : Tracks Q x y)
    (k : ∀ a b, Q a b → Q' a b) : Tracks Q' x y := by
  cases x with
  | error e => exact h
  | ok a =>
    obtain ⟨b, rfl, hab⟩ := h
    exact ⟨b, rfl, k a b hab⟩

end Tracks

theorem Agree.tracks {R : Value → Value → Prop} {Q : α → β → Prop} {x : Except Error α}
    {y : Except Error β} (h : Agrees R Q x y) : Tracks Q x y := by
  cases h with
  | ok hab => exact .ok hab
  | error he => exact .error he.proper

namespace Layer

variable {R : Value → Value → Prop} {v w : Value}

theorem sketch (h : Layer R v w) : Sketch R v w := by
  cases h with
  | undefined => exact .undefined
  | null => exact .null
  | bool b => exact .bool b
  | num x => exact .num x
  | str s => exact .str s
  | array hs => exact .array hs
  | object hs => exact .object hs
  | primitive p => exact .primitive p
  | builtin b => exact .builtin b
  | closure => exact .closure
  | cached => exact .cached
  | cont _ => exact .cont
  | dist hd => exact .dist hd

theorem ofSketch (h : Sketch R v w) (hid : v.id? = none) : Layer R v w := by
  cases h with
  | undefined => exact .undefined
  | null => exact .null
  | bool b => exact .bool b
  | num x => exact .num x
  | str s => exact .str s
  | array hs => exact .array hs
  | object hs => exact .object hs
  | primitive p => exact .primitive p
  | builtin b => exact .builtin b
  | closure | cached | cont | dist => cases hid

end Layer

namespace Likeness

variable {R : Value → Value → Prop}

/-! ## Texts -/

mutual

theorem text_eq (L : Likeness R) : ∀ (v w : Value), R v w → v.text = w.text
  | .array vs, w, h => by
    cases L.layer h with
    | array hs => rw [Value.text, Value.text, valueTexts_eq L vs _ hs]
  | .object fs, w, h => by
    cases L.layer h with
    | object hs => rw [Value.text, Value.text, entryTexts_eq L fs _ hs]
  | .undefined, w, h => by cases L.layer h; rfl
  | .null, w, h => by cases L.layer h; rfl
  | .bool _, w, h => by cases L.layer h; rfl
  | .num _, w, h => by cases L.layer h; rfl
  | .str _, w, h => by cases L.layer h; rfl
  | .primitive _, w, h => by cases L.layer h; rfl
  | .builtin _, w, h => by cases L.layer h; rfl
  | .closure _ name .., w, h => by
    cases L.layer h
    cases name <;> rfl
  | .cached .., w, h => by cases L.layer h; rfl
  | .cont .., w, h => by
    cases L.layer h with
    | cont hc => rw [Value.text, Value.text, hc]
  | .dist .., w, h => by
    cases L.layer h with
    | dist hd => cases hd <;> rfl

theorem valueTexts_eq (L : Likeness R) :
    ∀ (vs ws : List Value), List.Forall₂ R vs ws → valueTexts vs = valueTexts ws
  | [], _, h => by cases h; rfl
  | v :: vs, _, h => by
    cases h with
    | cons hv hs => rw [valueTexts, valueTexts, text_eq L v _ hv, valueTexts_eq L vs _ hs]

theorem entryTexts_eq (L : Likeness R) :
    ∀ (fs gs : List (String × Value)), List.Forall₂ (FieldLike R) fs gs →
      entryTexts fs = entryTexts gs
  | [], _, h => by cases h; rfl
  | (k, v) :: fs, _, h => by
    cases h with
    | cons hf hs =>
      cases hf with
      | mk hv => rw [entryTexts, entryTexts, text_eq L v _ hv, entryTexts_eq L fs _ hs]

end

section Operations

variable (L : Likeness R) {v w : Value}
include L

theorem texts_eq {d e : Dist} (h : DistLike R d e) : d.texts = e.texts := by
  cases h with
  | marginal hs => exact map_eq_of_forall₂ hs fun _ _ he => L.text_eq _ _ he.value
  | _ => rfl

theorem semblance : Semblance R where
  layer := fun h => (L.layer h).sketch
  data := fun h hid => L.data (.ofSketch h hid) hid
  unique := L.unique
  texts := by
    intro i j d e h
    cases L.layer h with
    | dist hd => exact L.texts_eq hd

theorem key_eq (h : R v w) : v.key = w.key :=
  L.semblance.key_eq h (L.text_eq v w h)

theorem truthy_eq (h : R v w) : v.truthy = w.truthy :=
  L.semblance.truthy_eq h

/-! ## Values taken as something -/

theorem toNumber (h : R v w) : Tracks Eq v.toNumber w.toNumber :=
  (L.semblance.toNumber h).tracks

theorem toItems (h : R v w) : Tracks (List.Forall₂ R) v.toItems w.toItems :=
  (L.semblance.toItems h).tracks

theorem toDist (h : R v w) : Tracks (DistLike R) v.toDist w.toDist :=
  (L.semblance.toDist h).tracks.mono fun _ _ hd => hd.like

theorem toAddress (h : R v w) : Tracks Eq v.toAddress w.toAddress :=
  (L.semblance.toAddress h).tracks

/-! ## Arrays -/

theorem array {vs ws : List Value} (h : List.Forall₂ R vs ws) : R (.array vs) (.array ws) :=
  L.semblance.array h

end Operations

end Likeness

end Chance
