import Mathlib.Data.Set.Lattice
import Mathlib.Order.CompletePartialOrder
import Chance.Machine.Inference

/-!
# Sites

A coroutine is asked at a site: it is told the address, and whether to draw a value or to count a
factor. The addresses below an address are those that extend it by parts. A part holds no
underscore, so what extends an address by one part cannot extend it by another.

- `Below`: the sites at an address and below it,
- `Under`: the sites below the numbered extensions of an address,
- `shown`: the sites that a continuation can reach, which counts only outside enumerations.
-/

namespace Chance

variable {a : String} {M N : Set Nat} {n : Nat} {X Y : Set Site}

/-- What a coroutine is asked for. -/
inductive Channel where
  | sample
  | factor
deriving DecidableEq, Repr

/-- Where a coroutine is asked, and for what. -/
abbrev Site := Channel × String

/-- The sites whose address is `a` or extends it. -/
def Below (a : String) : Set Site :=
  {s | s.2 = a ∨ ∃ t, s.2 = subaddress a t}

/-- The sites at and below the extensions of `a` by the numbers in `N`. -/
def Under (a : String) (N : Set Nat) : Set Site :=
  {s | ∃ n ∈ N, s ∈ Below (subaddress a (toString n))}

/-! ## Parts -/

/-- Texts without an underscore. -/
def IsPart (p : String) : Prop :=
  '_' ∉ p.toList

theorem isPart_toString (n : Nat) : IsPart (toString n) := by
  simp [IsPart]

theorem subaddress_toList (a p : String) :
    (subaddress a p).toList = a.toList ++ '_' :: p.toList := by
  simp [subaddress]

theorem mem_below_iff {s : Site} :
    s ∈ Below a ↔ ∃ r, s.2.toList = a.toList ++ r ∧ (r = [] ∨ r.head? = some '_') := by
  constructor
  · rintro (h | ⟨t, h⟩)
    · exact ⟨[], by rw [h, List.append_nil], .inl rfl⟩
    · exact ⟨'_' :: t.toList, by rw [h, subaddress_toList], .inr rfl⟩
  · rintro ⟨r, h, rfl | hr⟩
    · left
      rw [List.append_nil] at h
      exact String.toList_inj.1 h
    · right
      obtain ⟨t, rfl⟩ := List.head?_eq_some_iff.1 hr
      refine ⟨String.ofList t, String.toList_inj.1 ?_⟩
      rw [h, subaddress_toList, String.toList_ofList]

theorem takeWhile_part {p r : List Char} (hp : '_' ∉ p) (hr : r = [] ∨ r.head? = some '_') :
    (p ++ r).takeWhile (· ≠ '_') = p := by
  have hall : ∀ c ∈ p, decide (c ≠ '_') = true := by
    intro c hc
    simp only [ne_eq, decide_not, Bool.not_eq_true', decide_eq_false_iff_not]
    rintro rfl
    exact hp hc
  rw [List.takeWhile_append_of_pos hall]
  rcases hr with rfl | hr
  · simp
  · obtain ⟨t, rfl⟩ := List.head?_eq_some_iff.1 hr
    simp

/-! ## Extensions -/

theorem below_subaddress (a p : String) : Below (subaddress a p) ⊆ Below a := by
  intro s hs
  obtain ⟨r, h, _⟩ := mem_below_iff.1 hs
  refine mem_below_iff.2 ⟨'_' :: (p.toList ++ r), ?_, .inr rfl⟩
  rw [h, subaddress_toList, List.append_assoc]
  rfl

theorem disjoint_below {p q : String} (hp : IsPart p) (hq : IsPart q) (hne : p ≠ q) :
    Disjoint (Below (subaddress a p)) (Below (subaddress a q)) := by
  rw [Set.disjoint_left]
  intro s hs hs'
  obtain ⟨r, h, hr⟩ := mem_below_iff.1 hs
  obtain ⟨r', h', hr'⟩ := mem_below_iff.1 hs'
  rw [h, subaddress_toList, subaddress_toList, List.append_assoc, List.append_assoc] at h'
  have htail : p.toList ++ r = q.toList ++ r' := by
    simpa using List.append_cancel_left h'
  refine hne (String.toList_inj.1 ?_)
  rw [← takeWhile_part hp hr, htail, takeWhile_part hq hr']

theorem mem_below_self (c : Channel) (a : String) : (c, a) ∈ Below a :=
  .inl rfl

theorem not_mem_below_subaddress (c : Channel) (a p : String) :
    (c, a) ∉ Below (subaddress a p) := by
  intro h
  obtain ⟨r, h, _⟩ := mem_below_iff.1 h
  have hlength := congrArg List.length h
  rw [subaddress_toList] at hlength
  simp at hlength

theorem toString_injective : Function.Injective (toString : Nat → String) := by
  intro m n h
  have hdigits : Nat.toDigits 10 m = Nat.toDigits 10 n := by
    simpa using congrArg String.toList h
  have hback (k : Nat) : Nat.ofDigitChars 10 (Nat.toDigits 10 k) 0 = k := by
    simp
  rw [← hback m, hdigits, hback n]

theorem under_mono (h : N ⊆ M) : Under a N ⊆ Under a M :=
  fun _ ⟨n, hn, hs⟩ => ⟨n, h hn, hs⟩

theorem under_subset (a : String) (N : Set Nat) : Under a N ⊆ Below a :=
  fun _ ⟨_, _, hs⟩ => below_subaddress _ _ hs

theorem below_subset_under (h : n ∈ N) : Below (subaddress a (toString n)) ⊆ Under a N :=
  fun _ hs => ⟨n, h, hs⟩

theorem disjoint_below_under (h : n ∉ N) :
    Disjoint (Below (subaddress a (toString n))) (Under a N) := by
  rw [Set.disjoint_left]
  rintro s hs ⟨m, hm, hs'⟩
  have hne : toString n ≠ toString m := fun heq => h (toString_injective heq ▸ hm)
  exact Set.disjoint_left.1 (disjoint_below (isPart_toString n) (isPart_toString m) hne) hs hs'

theorem disjoint_under (h : Disjoint N M) : Disjoint (Under a N) (Under a M) := by
  rw [Set.disjoint_left]
  rintro s ⟨n, hn, hs⟩ hs'
  exact Set.disjoint_left.1 (disjoint_below_under (Set.disjoint_left.1 h hn)) hs hs'

/-! ## What is shown -/

/-- Sites that count for the coroutines below all enumerations: within enumerations `σ`, none. -/
def shown (σ : List Nat) (X : Set Site) : Set Site :=
  {s | σ = [] ∧ s ∈ X}

theorem shown_mono (σ : List Nat) (h : X ⊆ Y) : shown σ X ⊆ shown σ Y :=
  fun _ hs => ⟨hs.1, h hs.2⟩

theorem shown_disjoint (σ : List Nat) (h : Disjoint X Y) : Disjoint (shown σ X) (shown σ Y) :=
  h.mono (fun _ hs => hs.2) fun _ hs => hs.2

@[simp] theorem shown_nil (X : Set Site) : shown [] X = X := by
  ext s
  simp [shown]

@[simp] theorem shown_cons (i : Nat) (σ : List Nat) (X : Set Site) : shown (i :: σ) X = ∅ := by
  ext s
  simp [shown]

end Chance
