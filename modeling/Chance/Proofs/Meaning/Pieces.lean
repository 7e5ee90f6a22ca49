import Mathlib.Data.Set.Lattice
import Mathlib.Order.CompletePartialOrder
import Mathlib.Order.Interval.Set.Basic
import Chance.Proofs.Meaning.Realized

/-!
# Pieces of code

Conversion moves calls in front of the expression they stand in; what is left of the expression is
evaluated later, after code that has made identities and may have written to the store. A piece of
code stands for a value that direct evaluation already has: wherever it is evaluated later, it gives
what realizes the value. The identities that direct evaluation gave to parts of the value are
reserved until then.

- `Growth`: how a matching grows while code is evaluated,
- `Answers`: a computation succeeds with a result that is related under a matching that grew,
- `Piece`: code that answers in all scopes and states that may come,
- `Piece.pair`, `Piece.inPlace`: pieces one after another, and what is computed from them.
-/

namespace Chance

/-! ## Growing matchings -/

variable {α : Type}

/-- Only identities in `R` were matched, with such that were given out between the two states. -/
structure Growth (R : Set Nat) (π ρ : Matching) (n n' : Machine) : Prop where
  le : π ≤ ρ
  new : ∀ i j, ρ.ids i j → π.ids i j ∨ i ∈ R ∧ n.nextId ≤ j ∧ j < n'.nextId
  nextId : n.nextId ≤ n'.nextId

/-- The identities in `R` can still be matched with those that will be given out. -/
structure Room (R : Set Nat) (π : Matching) (n : Machine) : Prop where
  left : ∀ i ∈ R, ∀ j, ¬ π.ids i j
  right : ∀ i j, π.ids i j → j < n.nextId

section Growing

variable {R S : Set Nat} {π ρ τ : Matching} {n n' n'' : Machine}

theorem Growth.refl (R : Set Nat) (π : Matching) (n : Machine) : Growth R π π n n :=
  ⟨Matching.le_refl π, fun _ _ h => .inl h, le_rfl⟩

theorem Growth.mono (h : Growth R π ρ n n') (hRS : R ⊆ S) : Growth S π ρ n n' where
  le := h.le
  new := fun i j hij => (h.new i j hij).imp_right fun ⟨hi, hj⟩ => ⟨hRS hi, hj⟩
  nextId := h.nextId

theorem Growth.trans (h : Growth R π ρ n n') (h' : Growth S ρ τ n' n'') :
    Growth (R ∪ S) π τ n n'' where
  le := Matching.le_trans h.le h'.le
  new := by
    intro i j hij
    rcases h'.new i j hij with hij | ⟨hi, hlo, hhi⟩
    · rcases h.new i j hij with hij | ⟨hi, hlo, hhi⟩
      · exact .inl hij
      · exact .inr ⟨.inl hi, hlo, hhi.trans_le h'.nextId⟩
    · exact .inr ⟨.inr hi, h.nextId.trans hlo, hhi⟩
  nextId := h.nextId.trans h'.nextId

theorem Room.mono (h : Room S π n) (hRS : R ⊆ S) : Room R π n :=
  ⟨fun i hi => h.left i (hRS hi), h.right⟩

theorem Room.after (h : Room S π n) (hg : Growth R π ρ n n') (hRS : Disjoint R S) :
    Room S ρ n' where
  left := by
    intro i hi j hij
    rcases hg.new i j hij with hij | ⟨hi', _⟩
    · exact h.left i hi j hij
    · exact Set.disjoint_left.1 hRS hi' hi
  right := by
    intro i j hij
    rcases hg.new i j hij with hij | ⟨_, _, hj⟩
    · exact (h.right i j hij).trans_le hg.nextId
    · exact hj

end Growing

/-! ## Answers -/

/-- The computation succeeds, and its result and the state are as they should be. -/
def Answers {α : Type} (R : Set Nat) (π : Matching) (n : Machine) (x : Exec α)
    (Q : Matching → Machine → α → Prop) : Prop :=
  ∃ ρ n' a, x n = .ok a n' ∧ Growth R π ρ n n' ∧ Q ρ n' a

namespace Answers

variable {α β : Type} {R S : Set Nat} {π : Matching} {n : Machine}
  {Q Q' : Matching → Machine → α → Prop} {P : Matching → Machine → β → Prop} {x : Exec α}

theorem pure {a : α} (h : Q π n a) : Answers R π n (pure a) Q :=
  ⟨π, n, a, rfl, .refl R π n, h⟩

theorem imp (h : Answers R π n x Q) (himp : ∀ ρ n' a, Growth R π ρ n n' → Q ρ n' a → Q' ρ n' a) :
    Answers R π n x Q' := by
  rcases h with ⟨ρ, n', a, hx, hg, ha⟩
  exact ⟨ρ, n', a, hx, hg, himp ρ n' a hg ha⟩

theorem bind {f : α → Exec β} (h : Answers R π n x Q)
    (hf : ∀ ρ n' a, Growth R π ρ n n' → Q ρ n' a → Answers S ρ n' (f a) P) :
    Answers (R ∪ S) π n (x >>= f) P := by
  rcases h with ⟨ρ, n', a, hx, hg, ha⟩
  rcases hf ρ n' a hg ha with ⟨τ, n'', b, hb, hg', hP⟩
  exact ⟨τ, n'', b, (Exec.bind_ok hx f).trans hb, hg.trans hg', hP⟩

end Answers

/-! ## What is computed in place -/

section InPlace

variable {π : Matching} {m m' n : Machine} {v : Value} {x y : Exec Value}

theorem newDist_answers {d e : Dist} (hd : DistLike (Value.Realized π) d e)
    (hroom : Room {m.nextId} π n) :
    Answers {m.nextId} π n (Exec.newDist e) fun ρ n' w =>
      (Value.dist m.nextId d).Realized ρ w ∧ n'.store = n.store := by
  have hright (i : Nat) : ¬ π.ids i n.nextId := fun hij => (hroom.right i _ hij).false
  have hleft := hroom.left m.nextId rfl
  refine ⟨π.insert m.nextId n.nextId hleft hright, { n with nextId := n.nextId + 1 },
    .dist n.nextId e, rfl, ⟨Matching.le_insert hleft hright, ?_, Nat.le_succ _⟩, ?_, rfl⟩
  · rintro i j (hij | ⟨rfl, rfl⟩)
    · exact .inl hij
    · exact .inr ⟨rfl, le_rfl, Nat.lt_succ_self _⟩
  · exact .dist (.inr ⟨rfl, rfl⟩) (distRealized_mono (Matching.le_insert hleft hright) hd)

theorem InPlace.answers (h : InPlace (Value.Realized π) x y) (hx : x m = .ok v m')
    (hroom : Room (Set.Ico m.nextId m'.nextId) π n) :
    Answers (Set.Ico m.nextId m'.nextId) π n y fun ρ n' w =>
      v.Realized ρ w ∧ n'.store = n.store := by
  induction h with
  | pure hv =>
    cases hx
    exact .pure ⟨hv, rfl⟩
  | throw _ => cases hx
  | @lift x y h =>
    cases x with
    | error e => cases hx
    | ok u =>
      rcases h with ⟨w, rfl, hw⟩
      cases hx
      exact .pure ⟨hw, rfl⟩
  | @bind _ _ _ x _ f g h _ ih =>
    cases x with
    | error e => cases hx
    | ok a =>
      rcases h with ⟨b, rfl, hab⟩
      exact ih a b hab hx
  | newDist hd =>
    cases hx
    -- One identity is given out, for the distribution.
    have hsingle : Set.Ico m.nextId (m.nextId + 1) = {m.nextId} := by
      ext i
      simp only [Set.mem_Ico, Set.mem_singleton_iff]
      omega
    rw [hsingle] at hroom ⊢
    exact newDist_answers hd hroom
  | @print vs ws hs =>
    cases hx
    exact ⟨π, _, .undefined, rfl, ⟨Matching.le_refl π, fun _ _ hij => .inl hij, le_rfl⟩,
      .undefined, rfl⟩

end InPlace

/-! ## Pieces -/

/-- What is known of the store in which code is evaluated. -/
inductive View where
  /-- It is this one. -/
  | exactly (s : Store)
  /-- It realizes this one. -/
  | like (s : Store)

def View.Holds : View → Matching → Store → Prop
  | .exactly s, _, t => t = s
  | .like s, π, t => StoreRealized π s t

theorem View.Holds.mono {V : View} {π ρ : Matching} {t : Store} (h : V.Holds π t) (hπ : π ≤ ρ) :
    V.Holds ρ t := by
  cases V with
  | exactly s => exact h
  | like s => exact fieldsRealized_mono hπ h

/-- Facts that stay true while a matching grows. -/
def Persists {α : Type} (Q : Matching → α → Prop) : Prop :=
  ∀ (π ρ : Matching) (a : α), π ≤ ρ → Q π a → Q ρ a

theorem persists_realized (v : Value) : Persists fun π w => v.Realized π w :=
  fun _ _ _ hπ h => h.mono hπ

theorem persists_const (Q : α → Prop) : Persists fun _ a => Q a :=
  fun _ _ _ _ h => h

theorem Persists.and {β : Type} {Q : Matching → α → Prop} {P : Matching → β → Prop}
    (hQ : Persists Q) (hP : Persists P) : Persists fun π (ab : α × β) => Q π ab.1 ∧ P π ab.2 :=
  fun _ _ _ hπ h => ⟨hQ _ _ _ hπ h.1, hP _ _ _ hπ h.2⟩

/-- In all scopes that agree, in all states that have room, the computation answers. -/
def Piece {α : Type} (count : Nat) (env : Env) (π : Matching) (x : Env → Exec α) (V V' : View)
    (R : Set Nat) (Q : Matching → α → Prop) : Prop :=
  ∀ env' ρ n, env.Agrees count env' → π ≤ ρ → Room R ρ n → V.Holds ρ n.store →
    Answers R ρ n (x env') fun τ n' a => Q τ a ∧ V'.Holds τ n'.store

namespace Piece

variable {α β : Type} {c c' : Nat} {env env' : Env} {π ρ : Matching} {V V' V'' : View}
  {R S : Set Nat} {x : Env → Exec α} {y : Env → Exec β} {Q : Matching → α → Prop}
  {P : Matching → β → Prop}

theorem later (h : Piece c env π x V V' R Q) (hagrees : env.Agrees c env') (hc : c ≤ c')
    (hπ : π ≤ ρ) : Piece c' env' ρ x V V' R Q :=
  fun env'' τ n hagrees' hρ hroom hV =>
    h env'' τ n (hagrees.trans hagrees' hc) (Matching.le_trans hπ hρ) hroom hV

theorem pure {a : α} (h : ∀ ρ, π ≤ ρ → Q ρ a) : Piece c env π (fun _ => pure a) V V R Q :=
  fun _ ρ _ _ hπ _ hV => .pure ⟨h ρ hπ, hV⟩

theorem bind {f : Env → α → Exec β} (hx : Piece c env π x V V' R Q)
    (hf : ∀ ρ a, π ≤ ρ → Q ρ a → Piece c env ρ (fun e => f e a) V' V'' S P)
    (hRS : Disjoint R S) : Piece c env π (fun e => x e >>= f e) V V'' (R ∪ S) P := by
  intro env' ρ n hagrees hπ hroom hV
  have hfirst := hx env' ρ n hagrees hπ (hroom.mono Set.subset_union_left) hV
  refine hfirst.bind fun τ n' a hg ⟨ha, hV'⟩ => ?_
  have hroom' := (hroom.mono Set.subset_union_right).after hg hRS
  exact hf τ a (Matching.le_trans hπ hg.le) ha env' τ n' hagrees (Matching.le_refl τ) hroom' hV'

theorem congr {z : Env → Exec α} (h : Piece c env π x V V' R Q) (hz : ∀ e, z e = x e) :
    Piece c env π z V V' R Q := by
  intro env' ρ n hagrees hπ hroom hV
  rw [hz]
  exact h env' ρ n hagrees hπ hroom hV

theorem map {f : α → β} (hx : Piece c env π x V V' R Q) (hf : ∀ ρ a, Q ρ a → P ρ (f a)) :
    Piece c env π (fun e => x e >>= fun a => Pure.pure (f a)) V V' R P := by
  intro env' ρ n hagrees hπ hroom hV
  rcases hx env' ρ n hagrees hπ hroom hV with ⟨τ, n', a, hx, hg, ha, hV'⟩
  exact ⟨τ, n', f a, Exec.bind_ok hx _, hg, hf τ a ha, hV'⟩

/-- Two pieces, one after the other. -/
theorem pair (hx : Piece c env π x V V' R Q) (hy : Piece c env π y V' V'' S P) (hQ : Persists Q)
    (hRS : Disjoint R S) :
    Piece c env π (fun e => x e >>= fun a => y e >>= fun b => Pure.pure (a, b)) V V'' (R ∪ S)
      fun τ ab => Q τ ab.1 ∧ P τ ab.2 := by
  intro env' ρ n hagrees hπ hroom hV
  have hfirst := hx env' ρ n hagrees hπ (hroom.mono Set.subset_union_left) hV
  refine hfirst.bind fun τ n' a hg ⟨ha, hV'⟩ => ?_
  have hroom' := (hroom.mono Set.subset_union_right).after hg hRS
  have hsecond := hy env' τ n' hagrees (Matching.le_trans hπ hg.le) hroom' hV'
  rcases hsecond with ⟨τ', n'', b, hb, hg', hP, hV''⟩
  exact ⟨τ', n'', (a, b), Exec.bind_ok hb _, hg', ⟨hQ _ _ _ hg'.le ha, hP⟩, hV''⟩

/-- What is computed in place from the result of a piece, as it was on the direct side. -/
theorem inPlace {f : α → Exec Value} {direct : Exec Value} {m m' : Machine} {v : Value}
    (hx : Piece c env π x V V' R Q)
    (hf : ∀ ρ a, Q ρ a → InPlace (Value.Realized ρ) direct (f a)) (hdirect : direct m = .ok v m')
    (hR : Disjoint R (Set.Ico m.nextId m'.nextId)) :
    Piece c env π (fun e => x e >>= f) V V' (R ∪ Set.Ico m.nextId m'.nextId)
      fun τ w => v.Realized τ w := by
  intro env' ρ n hagrees hπ hroom hV
  have hfirst := hx env' ρ n hagrees hπ (hroom.mono Set.subset_union_left) hV
  refine hfirst.bind fun τ n' a hg ⟨ha, hV'⟩ => ?_
  have hroom' := (hroom.mono Set.subset_union_right).after hg hR
  refine ((hf τ a ha).answers hdirect hroom').imp fun τ' n'' w hg' ⟨hw, hstore⟩ => ⟨hw, ?_⟩
  rw [hstore]
  exact hV'.mono hg'.le

end Piece

end Chance
