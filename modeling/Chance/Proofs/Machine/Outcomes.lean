import Chance.Proofs.Machine.Over

/-!
# Outcomes that can be decided

Whether a computation has an outcome of a certain kind is decided by running it. A statement that
there are such outcomes, each one of what the ones before it have led to, can therefore be decided.
So can the statement that a run comes to a point of a certain kind (`Task.runTo`).
-/

namespace Chance

section Outcomes

variable {α ε σ : Type} {P : α → Prop} {Q : α → σ → Prop} {R : ε → σ → Prop}

instance decidableReturned [DecidablePred P] (x : Except ε α) : Decidable (∃ a, x = .ok a ∧ P a) :=
  match x with
  | .ok a => decidable_of_iff (P a) (by simp)
  | .error _ => isFalse (by simp)

instance decidableEnded [∀ a s, Decidable (Q a s)] (r : EStateM.Result ε σ α) :
    Decidable (∃ a s, r = .ok a s ∧ Q a s) :=
  match r with
  | .ok a s => decidable_of_iff (Q a s) (by simp [and_assoc])
  | .error _ _ => isFalse (by simp)

instance decidableEndedSome [∀ a s, Decidable (Q a s)] (r : EStateM.Result ε σ (Option α)) :
    Decidable (∃ a s, r = .ok (some a) s ∧ Q a s) :=
  match r with
  | .ok (some a) s => decidable_of_iff (Q a s) (by simp [and_assoc])
  | .ok none _ | .error _ _ => isFalse (by simp)

instance decidableFailed [∀ e s, Decidable (R e s)] (r : EStateM.Result ε σ α) :
    Decidable (∃ e s, r = .error e s ∧ R e s) :=
  match r with
  | .ok _ _ => isFalse (by simp)
  | .error e s => decidable_of_iff (R e s) (by simp [and_assoc])

instance decidableFailedWithin [∀ e s, Decidable (R e s)] (r : Option (Except ε α) × Nat × σ) :
    Decidable (∃ e n s, r = (some (.error e), n, s) ∧ R e s) :=
  match r with
  | (some (.error e), _, s) => decidable_of_iff (R e s) (by simp [and_assoc])
  | (some (.ok _), _, _) | (none, _, _) => isFalse (by simp)

end Outcomes

instance (v : Value) (b : Bool) : Decidable (v = .bool b) :=
  match v with
  | .bool c => decidable_of_iff (c = b) (by simp)
  | .undefined | .null | .num _ | .str _ | .array _ | .object _ | .closure .. | .primitive _
  | .builtin _ | .cached .. | .cont .. | .dist .. => isFalse nofun

instance (v : Value) (s : String) : Decidable (v = .str s) :=
  match v with
  | .str t => decidable_of_iff (t = s) (by simp)
  | .undefined | .null | .num _ | .bool _ | .array _ | .object _ | .closure .. | .primitive _
  | .builtin _ | .cached .. | .cont .. | .dist .. => isFalse nofun

instance (fields : Store) (x : String) (v : Value) [∀ w, Decidable (w = v)] :
    Decidable (fields = [(x, v)]) :=
  match fields with
  | [(y, w)] => decidable_of_iff (y = x ∧ w = v) (by simp)
  | [] | _ :: _ :: _ => isFalse nofun

instance {P : Engine → Prop} [DecidablePred P] (stack : List Coroutine) :
    Decidable (∃ e, stack = [.engine e] ∧ P e) :=
  match stack with
  | [.engine e] => decidable_of_iff (P e) (by simp)
  | [] | [.script _] | _ :: _ :: _ => isFalse (by simp)

/-! ## Points of a run -/

/-- Performs so many tasks at most, up to the first point at which `stop` holds. -/
def Task.runTo (stop : Task → Machine → Bool) : Nat → Task → Machine → Option (Task × Machine)
  | 0, _, _ => none
  | fuel + 1, t, m =>
    if stop t m then some (t, m)
    else
      match t.perform m with
      | .ok s m' => s.task?.bind fun t' => t'.runTo stop fuel m'
      | .error .. => none

section Points

variable {stop : Task → Machine → Bool} {fuel : Nat} {t t' t₁ : Task} {m m' m₁ : Machine} {s : Step}

theorem Task.runTo_of_stop (hstop : stop t m = true) (h : t.runTo stop fuel m = some (t₁, m₁)) :
    t₁ = t ∧ m₁ = m := by
  cases fuel with
  | zero => cases h
  | succ fuel =>
    rw [Task.runTo, if_pos hstop] at h
    cases h
    exact ⟨rfl, rfl⟩

theorem Task.runTo_of_step (hstop : stop t m = false) (hs : t.perform m = .ok s m')
    (ht' : s.task? = some t') (h : t.runTo stop fuel m = some (t₁, m₁)) :
    ∃ fuel', t'.runTo stop fuel' m' = some (t₁, m₁) := by
  cases fuel with
  | zero => cases h
  | succ fuel =>
    rw [Task.runTo, if_neg (Bool.eq_false_iff.1 hstop), hs] at h
    simp only [ht', Option.bind_some] at h
    exact ⟨fuel, h⟩

/-- What every step keeps holds at that point. -/
theorem Task.runTo_keeps {R : Task → Machine → Prop} (h : t.runTo stop fuel m = some (t₁, m₁))
    (hR : R t m) (hstep : ∀ {t t' : Task} {m m' : Machine} {s : Step}, R t m → stop t m = false →
      t.perform m = .ok s m' → s.task? = some t' → R t' m') : R t₁ m₁ ∧ stop t₁ m₁ = true := by
  induction fuel generalizing t m with
  | zero => cases h
  | succ fuel ih =>
    unfold Task.runTo at h
    split_ifs at h with hstop
    · cases h
      exact ⟨hR, hstop⟩
    · split at h
      · rename_i s m' hs
        obtain ⟨t', ht', hrest⟩ := Option.bind_eq_some_iff.1 h
        exact ih hrest (hstep hR (Bool.eq_false_iff.2 hstop) hs ht')
      · cases h

end Points

end Chance
