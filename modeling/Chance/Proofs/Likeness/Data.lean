import Chance.Proofs.Likeness.Layers

/-!
# Data

Data are the values in which nothing has an identity and nothing can be called. Data that look
alike are equal, so relations between the values of two runs say nothing less about them than
equality.
-/

namespace Chance

mutual

/-- Whether the value is made of numbers, texts, booleans, `null` and `undefined` alone. -/
def Value.isData : Value → Bool
  | .undefined | .null | .bool _ | .num _ | .str _ => true
  | .array vs => valuesData vs
  | .object fs => fieldsData fs
  | _ => false
termination_by structural v => v

def valuesData : List Value → Bool
  | [] => true
  | v :: vs => v.isData && valuesData vs
termination_by structural vs => vs

def fieldsData : List (String × Value) → Bool
  | [] => true
  | (_, v) :: fs => v.isData && fieldsData fs
termination_by structural fs => fs

end

namespace Semblance

variable {R : Value → Value → Prop}

mutual

theorem eq_of_isData (S : Semblance R) : ∀ {v w : Value}, R v w → v.isData = true → v = w
  | .undefined, _, h, _ => by cases S.layer h; rfl
  | .null, _, h, _ => by cases S.layer h; rfl
  | .bool _, _, h, _ => by cases S.layer h; rfl
  | .num _, _, h, _ => by cases S.layer h; rfl
  | .str _, _, h, _ => by cases S.layer h; rfl
  | .array vs, _, h, hdata => by
    cases S.layer h with
    | array hs => rw [S.eq_of_valuesData hs hdata]
  | .object fs, _, h, hdata => by
    cases S.layer h with
    | object hs => rw [S.eq_of_fieldsData hs hdata]

theorem eq_of_valuesData (S : Semblance R) : ∀ {vs ws : List Value}, List.Forall₂ R vs ws →
    valuesData vs = true → vs = ws
  | [], _, h, _ => by cases h; rfl
  | v :: vs, _, h, hdata => by
    obtain ⟨hv, hvs⟩ := Bool.and_eq_true_iff.1 hdata
    cases h with
    | cons h hs => rw [S.eq_of_isData h hv, S.eq_of_valuesData hs hvs]

theorem eq_of_fieldsData (S : Semblance R) : ∀ {fs gs : List (String × Value)},
    List.Forall₂ (FieldLike R) fs gs → fieldsData fs = true → fs = gs
  | [], _, h, _ => by cases h; rfl
  | (_, v) :: fs, _, h, hdata => by
    obtain ⟨hv, hfs⟩ := Bool.and_eq_true_iff.1 hdata
    cases h with
    | cons h hs =>
      obtain ⟨h⟩ := h
      rw [S.eq_of_isData h hv, S.eq_of_fieldsData hs hfs]

end

end Semblance

end Chance
