import Mathlib.Data.Set.Lattice
import Mathlib.Order.CompletePartialOrder
import Mathlib.Order.Interval.Set.Basic
import Chance.Proofs.Syntax.Numbered

/-!
# Threaded code

In converted code a path through a function body hands on one continuation and one address. The code
in tail position mentions the continuation that is current, under its one name, and continuations
that go on from there; it extends the address of its function by a number that no code after it
uses. Everything else is made of values of the program.

- `Atom`: expressions for values of the program,
- `Tail`: code in tail position, with the numbers that it may use,
- `Follows`: code for continuations,
- `Program.compile_threaded`: compiled programs are threaded.
-/

namespace Chance

variable {a κ : String} {N : Set Nat}

mutual

/-- Expressions that mention values of the program only. The functions in them are converted ones,
with a continuation and an address of their own. -/
inductive Atom : Expr → Prop
  | num (x : Float) : Atom (.num x)
  | str (s : String) : Atom (.str s)
  | bool (b : Bool) : Atom (.bool b)
  | null : Atom .null
  | undefined : Atom .undefined
  | var {x : String} : IsOrdinary x → Atom (.var x)
  | array {es : List Expr} : (∀ e ∈ es, Atom e) → Atom (.array es)
  | object {fs : List (String × Expr)} : (∀ f ∈ fs, Atom f.2) → Atom (.object fs)
  | unary {op : UnaryOp} {e : Expr} : Atom e → Atom (.unary op e)
  | binary {l r : Expr} {op : BinaryOp} : Atom l → Atom r → Atom (.binary l r op)
  | logic {l r : Expr} {op : LogicOp} : Atom l → Atom r → Atom (.logic l r op)
  | cond {t c e : Expr} : Atom t → Atom c → Atom e → Atom (.cond t c e)
  | member {o p : Expr} : Atom o → Atom p → Atom (.member o p)
  | call {f : Expr} {es : List Expr} : Atom f → (∀ e ∈ es, Atom e) → Atom (.call f es)
  | func {name : Option String} {κ a : String} {params : List String} {N : Set Nat} {e : Expr} :
      IsContinuationName κ → IsAddressName a → (∀ x ∈ name, IsOrdinary x) →
      (∀ x ∈ params, IsOrdinary x) → Tail κ a N e → Atom (.func name (κ :: a :: params) [.expr e])
  | assign {t v : Expr} : Atom t → Atom v → Atom (.assign t v)

/-- Code in tail position of a function with address `a`, while `κ` is the current continuation. Its
calls have numbers in `N`, and so have those of the continuations that it makes, each of them on a
path once. -/
inductive Tail : String → String → Set Nat → Expr → Prop
  | resume {κ a : String} {N N' : Set Nat} {k v : Expr} :
      Follows κ a N' k → N' ⊆ N → Atom v → Tail κ a N (.call k [v])
  | call {κ a : String} {N N' : Set Nat} {n : Nat} {f k : Expr} {es : List Expr} :
      Follows κ a N' k → n ∉ N' → insert n N' ⊆ N → f.isPrimitive = false → Atom f →
      (∀ e ∈ es, Atom e) →
      Tail κ a N (.call f (k :: Compile.extended a (.str (Compile.generated "" n)) :: es))
  | cond {κ a : String} {N N' N'' : Set Nat} {t c e : Expr} :
      Atom t → Tail κ a N' c → Tail κ a N'' e → N' ⊆ N → N'' ⊆ N → Tail κ a N (.cond t c e)
  | name {κ κ' a : String} {N N' N'' : Set Nat} {k e : Expr} :
      IsContinuationName κ' → Follows κ a N' k → Tail κ' a N'' e → Disjoint N' N'' → N' ∪ N'' ⊆ N →
      Tail κ a N (.call (.lambda [κ'] e) [k])

/-- Code for a continuation: the current one, or one that goes on from it. -/
inductive Follows : String → String → Set Nat → Expr → Prop
  | var {κ a : String} {N : Set Nat} : Follows κ a N (.var κ)
  | lambda {κ a x : String} {N : Set Nat} {e : Expr} :
      IsOrdinary x → Tail κ a N e → Follows κ a N (.lambda [x] e)

end

theorem Tail.mono {M : Set Nat} {e : Expr} (h : Tail κ a N e) (hM : N ⊆ M) : Tail κ a M e := by
  cases h with
  | resume hk hN hv => exact .resume hk (hN.trans hM) hv
  | call hk hn hN hf haf hes => exact .call hk hn (hN.trans hM) hf haf hes
  | cond ht hc he hN hN' => exact .cond ht hc he (hN.trans hM) (hN'.trans hM)
  | name hκ hk he hd hN => exact .name hκ hk he hd (hN.trans hM)

theorem Follows.mono {κ a : String} {N M : Set Nat} {k : Expr} (h : Follows κ a N k) (hM : N ⊆ M) :
    Follows κ a M k := by
  cases h with
  | var => exact .var
  | lambda hx he => exact .lambda hx (he.mono hM)

/-- Two readings of the code for a continuation agree on the current one, or are readings of the
code that it goes on with. -/
theorem Follows.compare {κ' a' : String} {N' : Set Nat} {c : Expr} (h : Follows κ a N c)
    (h' : Follows κ' a' N' c) :
    κ = κ' ∨ ∃ x e, c = .lambda [x] e ∧ Tail κ a N e ∧ Tail κ' a' N' e := by
  cases h with
  | var =>
    cases h'
    exact .inl rfl
  | lambda _ he =>
    cases h' with
    | lambda _ he' => exact .inr ⟨_, _, rfl, he, he'⟩

theorem sizeOf_lt_lambda (x : String) (e : Expr) : sizeOf e < sizeOf (Expr.lambda [x] e) := by
  simp [Expr.lambda]
  omega

theorem Tail.unique (e : Expr) {κ κ' a a' : String} {N N' : Set Nat} (h : Tail κ a N e)
    (h' : Tail κ' a' N' e) : κ = κ' := by
  have hfollows {c : Expr} (hlt : sizeOf c < sizeOf e) {N N' : Set Nat} (hc : Follows κ a N c)
      (hc' : Follows κ' a' N' c) : κ = κ' := by
    rcases hc.compare hc' with heq | ⟨x, e', rfl, he, he'⟩
    · exact heq
    · have := (sizeOf_lt_lambda x e').trans hlt
      exact Tail.unique e' he he'
  cases h with
  | resume hk =>
    cases h' with
    | resume hk' => exact hfollows (by simp; omega) hk hk'
    | name hκ' =>
      cases hk with
      | lambda hx => exact absurd hκ' hx.notContinuation
  | @call _ _ _ _ n _ _ _ hk =>
    generalize Compile.extended a (.str (Compile.generated "" n)) = x at h' hfollows
    cases h' with
    | call hk' => exact hfollows (by simp; omega) hk hk'
  | cond _ hc =>
    cases h' with
    | cond _ hc' => exact Tail.unique _ hc hc'
  | name hκ hk =>
    cases h' with
    | resume hk' =>
      cases hk' with
      | lambda hx => exact absurd hκ hx.notContinuation
    | name _ hk' => exact hfollows (by simp; omega) hk hk'
termination_by sizeOf e

namespace Compile

/-! ## Ranges of numbers -/

/-- No number of the set is in the range. -/
abbrev Outside (lo hi : Nat) (N : Set Nat) : Prop :=
  Disjoint N (Set.Ico lo hi)

section Ranges

variable {lo mid hi n : Nat} {N : Set Nat}

theorem Outside.narrow {lo' hi' : Nat} (h : Outside lo hi N) (hlo : lo ≤ lo') (hhi : hi' ≤ hi) :
    Outside lo' hi' N :=
  h.mono_right (Set.Ico_subset_Ico hlo hhi)

theorem Outside.join (h : Outside lo hi N) (hmid : mid ≤ hi) :
    Outside lo mid (N ∪ Set.Ico mid hi) := by
  refine Set.disjoint_union_left.2 ⟨h.narrow le_rfl hmid, ?_⟩
  rw [Set.disjoint_left]
  intro i hi hi'
  exact absurd hi.1 (not_le.2 hi'.2)

theorem outside_empty (lo hi : Nat) : Outside lo hi ∅ :=
  Set.empty_disjoint _

theorem join_subset (hlo : lo ≤ mid) (hhi : mid ≤ hi) :
    N ∪ Set.Ico mid hi ∪ Set.Ico lo mid ⊆ N ∪ Set.Ico lo hi := by
  rw [Set.union_assoc, Set.union_comm (Set.Ico mid hi), Set.Ico_union_Ico_eq_Ico hlo hhi]

end Ranges

/-! ## Usages -/

/-- Code for a value of the program, if the check accepts it. -/
abbrev GivesAtom (e : Expr) : Prop :=
  Accepted e → Atom e

/-- Code in tail position, if the check accepts it. -/
abbrev GivesTail (κ a : String) (N : Set Nat) (t : Expr) : Prop :=
  AcceptedTail t → Tail κ a N t

/-- All that a usage makes is threaded. -/
structure Usage.Threads (a : String) (lo hi : Nat) (e : Expr) (d : Usage) : Prop where
  keep : e.isAtomic = true → Gen.Yields GivesAtom d.keep
  pass : ∀ {κ : String} {N : Set Nat} {k : Expr}, IsContinuationName κ → Outside lo hi N →
    (Accepted k → Follows κ a N k) →
    Gen.Yields (GivesTail κ a (N ∪ Set.Ico lo hi)) (d.pass k)
  use : ∀ {κ : String} {N : Set Nat} {build : Build Expr}, IsContinuationName κ →
    Outside lo hi N → (∀ e', GivesAtom e' → Gen.Yields (GivesTail κ a N) (build e')) →
    Gen.Yields (GivesTail κ a (N ∪ Set.Ico lo hi)) (d.use build)

section Parts

variable {a κ : String} {N M : Set Nat} {lo mid hi : Nat} {e k : Expr} {build : Build Expr}
  {es : List Expr}

theorem Gen.Yields.mono {g : Gen Expr} (h : Gen.Yields (GivesTail κ a N) g) (hM : N ⊆ M) :
    Gen.Yields (GivesTail κ a M) g :=
  h.weaken fun _ ht haccepted => (ht haccepted).mono hM

theorem resume_gives {v : Expr} (hk : Accepted k → Follows κ a N k) (hv : GivesAtom v) :
    GivesTail κ a N (resume k v) := by
  intro h
  have hprimitive : k.isPrimitive = false := by
    by_contra hne
    simp [AcceptedTail, resume, checkTail, Bool.eq_true_of_not_eq_false hne] at h
  obtain ⟨hv', hk'⟩ := (acceptedTail_resume hprimitive).1 h
  exact .resume (hk hk') subset_rfl (hv hv')

theorem lambda_follows {x : String} (hx : IsOrdinary x) (he : GivesTail κ a N e) :
    Accepted (.lambda [x] e) → Follows κ a N (.lambda [x] e) :=
  fun h => .lambda hx (he h)

theorem fresh_bind_yields {α : Type} {P : α → Prop} {hint : String} {f : String → Gen α}
    (h : ∀ n, Gen.Yields P (f (generated hint n))) : Gen.Yields P (fresh hint >>= f) :=
  fun n => h n _

theorem nameContinuation_threads (hκ : IsContinuationName κ) (hk : Accepted k → Follows κ a N k)
    (hdisjoint : Disjoint N M)
    (h : ∀ κ', IsContinuationName κ' → Gen.Yields (GivesTail κ' a M) (build (.var κ'))) :
    Gen.Yields (GivesTail κ a (N ∪ M)) (nameContinuation k build) := by
  unfold nameContinuation
  split
  · cases hk rfl
    exact (h κ hκ).mono Set.subset_union_right
  · refine fresh_bind_yields fun n => ?_
    refine (h (generated "k" n) ⟨n, rfl⟩).bind fun body hbody => .pure fun haccepted => ?_
    obtain ⟨hbody', hk'⟩ := (acceptedTail_call rfl).1 haccepted
    exact .name ⟨n, rfl⟩ (hk (then_ok_iff.1 hk').1) (hbody hbody') hdisjoint subset_rfl

theorem useResult_threads {pass : Build Expr}
    (hpass : ∀ k, (Accepted k → Follows κ a N k) → Gen.Yields (GivesTail κ a M) (pass k))
    (hbuild : ∀ e', GivesAtom e' → Gen.Yields (GivesTail κ a N) (build e')) :
    Gen.Yields (GivesTail κ a M) (useResult pass build) := by
  refine fresh_bind_yields fun n => ?_
  have hatom : GivesAtom (.var (generated "result" n)) := fun _ => .var (ordinary_result n)
  refine (hbuild _ hatom).bind fun body hbody => ?_
  exact hpass _ (lambda_follows (ordinary_result n) hbody)

theorem ignoring_threads {rest : Gen Expr} (h : Gen.Yields (GivesTail κ a N) rest) :
    Gen.Yields (fun k => Accepted k → Follows κ a N k) (ignoring rest) :=
  fresh_bind_yields fun n => h.bind fun _ hbody =>
    .pure (lambda_follows (ordinary_dummy n) hbody)

theorem following_threads {ss : List Stmt} (hN : N ⊆ M) (hk : Accepted k → Follows κ a N k)
    (h : Gen.Yields (GivesTail κ a M) (sequence ss k)) :
    Gen.Yields (fun k => Accepted k → Follows κ a M k) (following ss k) := by
  unfold following
  split_ifs
  · exact .pure fun haccepted => (hk haccepted).mono hN
  · exact ignoring_threads h

/-- Code for several values of the program, if the check accepts it. -/
abbrev GivesAtoms (es : List Expr) : Prop :=
  ∀ e ∈ es, GivesAtom e

theorem part_givesAtom (h : GivesAtoms es) (i : Nat) : GivesAtom (part es i) := by
  rw [part, List.getD_eq_getElem?_getD]
  cases hi : es[i]? with
  | none => exact fun _ => .undefined
  | some e => exact h e (List.mem_of_getElem? hi)

theorem accepted_of_mem (h : checkPlains es = .ok ()) (he : e ∈ es) : Accepted e := by
  induction es with
  | nil => cases he
  | cons f es ih =>
    obtain ⟨hf, hes⟩ := then_ok_iff.1 h
    exact (List.mem_cons.1 he).elim (· ▸ hf) (ih hes)

theorem GivesAtoms.atoms (h : GivesAtoms es) (haccepted : checkPlains es = .ok ()) :
    ∀ e ∈ es, Atom e :=
  fun e he => h e he (accepted_of_mem haccepted he)

/-- Usages of expressions whose numbers follow one another. -/
def ThreadAll (a : String) : List Expr → Nat → Nat → Prop
  | [], lo, hi => lo ≤ hi
  | e :: es, lo, hi =>
    ∃ mid, lo ≤ mid ∧ mid ≤ hi ∧ (usage e).Threads a lo mid e ∧ ThreadAll a es mid hi

theorem threadTwo {l r : Expr} (hl : (usage l).Threads a lo mid l)
    (hr : (usage r).Threads a mid hi r)
    (hlo : lo ≤ mid) (hhi : mid ≤ hi) : ThreadAll a [l, r] lo hi :=
  ⟨mid, hlo, hhi, hl, hi, hhi, le_rfl, hr, le_rfl⟩

namespace Usage

variable {keep : Gen Expr} {pass : Build Expr} {c t : Expr} {dt : Usage}

theorem make_threads {use : Build Expr → Gen Expr}
    (hkeep : e.isAtomic = true → Gen.Yields GivesAtom keep)
    (hpass : ∀ {κ : String} {N : Set Nat} {k : Expr}, IsContinuationName κ → Outside lo hi N →
      (Accepted k → Follows κ a N k) → Gen.Yields (GivesTail κ a (N ∪ Set.Ico lo hi)) (pass k))
    (huse : ∀ {κ : String} {N : Set Nat} {build : Build Expr}, IsContinuationName κ →
      Outside lo hi N → (∀ e', GivesAtom e' → Gen.Yields (GivesTail κ a N) (build e')) →
      Gen.Yields (GivesTail κ a (N ∪ Set.Ico lo hi)) (use build)) :
    (make e.isAtomic keep pass use).Threads a lo hi e where
  keep := hkeep
  pass := hpass
  use := by
    intro κ N build hκ hout hbuild
    cases hatomic : e.isAtomic with
    | true =>
      refine (hkeep hatomic).bind fun e' he' => ?_
      exact (hbuild e' he').mono Set.subset_union_left
    | false => exact huse hκ hout hbuild

theorem named_threads (hkeep : e.isAtomic = true → Gen.Yields GivesAtom keep)
    (hpass : ∀ {κ : String} {N : Set Nat} {k : Expr}, IsContinuationName κ → Outside lo hi N →
      (Accepted k → Follows κ a N k) → Gen.Yields (GivesTail κ a (N ∪ Set.Ico lo hi)) (pass k)) :
    (make e.isAtomic keep pass (useResult pass)).Threads a lo hi e :=
  make_threads hkeep hpass fun hκ hout hbuild =>
    useResult_threads (fun _ hk => hpass hκ hout hk) hbuild

theorem leaf_threads (h : Atom e) : (leaf e).Threads a lo hi e where
  keep := fun _ => .pure fun _ => h
  pass := fun _ _ hk =>
    .pure fun haccepted => (resume_gives hk (fun _ => h) haccepted).mono Set.subset_union_left
  use := fun _ _ hbuild => (hbuild e fun _ => h).mono Set.subset_union_left

theorem keepAll_threads (h : ThreadAll a es lo hi) (hatomic : allAtomic es = true) :
    Gen.Yields GivesAtoms (keepAll (usageAll es)) := by
  induction es generalizing lo with
  | nil => exact .pure nofun
  | cons e es ih =>
    obtain ⟨mid, _, _, he, hes⟩ := h
    obtain ⟨hatomic, hatomics⟩ := Bool.and_eq_true_iff.1 hatomic
    exact (he.keep hatomic).bind fun e' he' => (ih hes hatomics).bind fun es' hes' =>
      .pure (List.forall_mem_cons.2 ⟨he', hes'⟩)

theorem useAll_threads (h : ThreadAll a es lo hi) (hκ : IsContinuationName κ)
    (hout : Outside lo hi N) {build : Build (List Expr)}
    (hbuild : ∀ es', GivesAtoms es' → Gen.Yields (GivesTail κ a N) (build es')) :
    Gen.Yields (GivesTail κ a (N ∪ Set.Ico lo hi)) (useAll (usageAll es) build) := by
  induction es generalizing lo build with
  | nil => exact (hbuild [] nofun).mono Set.subset_union_left
  | cons e es ih =>
    obtain ⟨mid, hlo, hhi, he, hes⟩ := h
    refine (he.use hκ (hout.join hhi) fun e' he' => ?_).mono (join_subset hlo hhi)
    exact ih hes (hout.narrow hlo le_rfl) fun es' hes' =>
      hbuild _ (List.forall_mem_cons.2 ⟨he', hes'⟩)

theorem formed_threads {named : Bool} {wrap : List Expr → Expr} (h : ThreadAll a es lo hi)
    (hatomic : e.isAtomic = true → allAtomic es = true)
    (hwrap : ∀ es', GivesAtoms es' → GivesAtom (wrap es')) :
    (formed e.isAtomic named wrap (usageAll es)).Threads a lo hi e := by
  have hkeep (hflag : e.isAtomic = true) : Gen.Yields GivesAtom
      (keepAll (usageAll es) >>= fun es' => pure (wrap es')) :=
    (keepAll_threads h (hatomic hflag)).bind fun es' hes' => .pure (hwrap es' hes')
  have hpass {κ : String} {N : Set Nat} {k : Expr} (hκ : IsContinuationName κ)
      (hout : Outside lo hi N) (hk : Accepted k → Follows κ a N k) :
      Gen.Yields (GivesTail κ a (N ∪ Set.Ico lo hi))
        (useAll (usageAll es) fun es' => pure (resume k (wrap es'))) :=
    useAll_threads h hκ hout fun es' hes' => .pure (resume_gives hk (hwrap es' hes'))
  cases named with
  | true => exact named_threads hkeep hpass
  | false =>
    exact make_threads hkeep hpass fun hκ hout hbuild =>
      useAll_threads h hκ hout fun es' hes' => hbuild _ (hwrap es' hes')

theorem choice_threads (ht : dt.Threads a lo mid t) (hlo : lo ≤ mid) (hhi : mid ≤ hi)
    (hκ : IsContinuationName κ) {arms : Build Expr}
    (harms : ∀ t', GivesAtom t' → Gen.Yields (GivesTail κ a (Set.Ico mid hi)) (arms t')) :
    Gen.Yields (GivesTail κ a (Set.Ico lo hi)) (dt.use arms) := by
  have hjoined : Outside lo mid (Set.Ico mid hi) :=
    Set.empty_union (Set.Ico mid hi) ▸ (outside_empty lo hi).join hhi
  refine (ht.use hκ hjoined harms).mono ?_
  rw [Set.union_comm, Set.Ico_union_Ico_eq_Ico hlo hhi]

theorem cond_gives_tail {N' N'' : Set Nat} (ht : GivesAtom t) (hc : GivesTail κ a N' c)
    (he : GivesTail κ a N'' e) (hN : N' ⊆ N) (hN' : N'' ⊆ N) : GivesTail κ a N (.cond t c e) := by
  intro h
  obtain ⟨ht', hc', he'⟩ := acceptedTail_cond.1 h
  exact .cond (ht ht') (hc hc') (he he') hN hN'

theorem cond_threads {dc de : Usage} {mid' : Nat} (ht : dt.Threads a lo mid t)
    (hc : dc.Threads a mid mid' c) (he : de.Threads a mid' hi e) (hlo : lo ≤ mid)
    (hmid : mid ≤ mid') (hhi : mid' ≤ hi) :
    (cond (Expr.cond t c e).isAtomic dt dc de).Threads a lo hi (.cond t c e) := by
  refine named_threads (fun h => ?_) (fun hκ hout hk => ?_)
  · simp only [Expr.isAtomic, Bool.and_eq_true] at h
    refine (ht.keep h.1.1).bind fun t' ht' => (hc.keep h.1.2).bind fun c' hc' =>
      (he.keep h.2).bind fun e' he' => .pure fun haccepted => ?_
    obtain ⟨ht'', hc'', he''⟩ := accepted_cond.1 haccepted
    exact .cond (ht' ht'') (hc' hc'') (he' he'')
  · refine nameContinuation_threads hκ hk hout fun κ' hκ' => ?_
    refine choice_threads ht hlo (hmid.trans hhi) hκ' fun t' ht' => ?_
    refine (hc.pass hκ' (outside_empty _ _) fun _ => .var).bind fun c' hc' => ?_
    refine (he.pass hκ' (outside_empty _ _) fun _ => .var).bind fun e' he' => .pure ?_
    refine cond_gives_tail ht' hc' he' ?_ ?_
    · rw [Set.empty_union]
      exact Set.Ico_subset_Ico_right hhi
    · rw [Set.empty_union]
      exact Set.Ico_subset_Ico_left hmid

theorem logic_threads {op : LogicOp} {l r : Expr} {dl dr : Usage} (hl : dl.Threads a lo mid l)
    (hr : dr.Threads a mid hi r) (hlo : lo ≤ mid) (hhi : mid ≤ hi) :
    (logic (Expr.logic l r op).isAtomic op dl dr).Threads a lo hi (.logic l r op) := by
  refine named_threads (fun h => ?_) (fun hκ hout hk => ?_)
  · simp only [Expr.isAtomic, Bool.and_eq_true] at h
    refine (hl.keep h.1).bind fun l' hl' => (hr.keep h.2).bind fun r' hr' =>
      .pure fun haccepted => ?_
    obtain ⟨hl'', hr''⟩ := then_ok_iff.1 haccepted
    exact .logic (hl' hl'') (hr' hr'')
  · refine nameContinuation_threads hκ hk hout fun κ' hκ' => ?_
    refine choice_threads hl hlo hhi hκ' fun l' hl' => ?_
    refine (hr.pass hκ' (outside_empty _ _) fun _ => .var).bind fun long hlong => ?_
    have hshort : GivesTail κ' a ∅ (resume (.var κ') l') := resume_gives (fun _ => .var) hl'
    rw [Set.empty_union] at hlong
    cases op with
    | or => exact .pure (cond_gives_tail hl' hshort hlong (Set.empty_subset _) subset_rfl)
    | and => exact .pure (cond_gives_tail hl' hlong hshort subset_rfl (Set.empty_subset _))

/-! ## Calls -/

theorem call_threads {f : Expr} {n : Nat} (hprimitive : f.isPrimitive = false)
    (hf : (usage f).Threads a lo mid f) (hes : ThreadAll a es mid n) (hlo : lo ≤ mid)
    (hmid : mid ≤ n) (hhi : n < hi) {x : Expr} (hx : x = extended a (.str (generated "" n))) :
    (usage (.call f (x :: es))).Threads a lo hi (.call f (x :: es)) := by
  subst hx
  refine named_threads (fun h => ?_) (fun {κ N k} hκ hout hk => ?_)
  · simp only [Expr.isAtomic, hprimitive, Bool.false_and, Bool.false_eq_true] at h
  · have hn : n ∉ N := fun hN => Set.disjoint_left.1 hout hN ⟨hlo.trans hmid, hhi⟩
    have hargs : Outside mid n (insert n N) := by
      refine Set.disjoint_insert_left.2 ⟨fun h => lt_irrefl n h.2, ?_⟩
      exact hout.narrow hlo hhi.le
    have hcallee : Outside lo mid (insert n N ∪ Set.Ico mid n) := by
      refine Outside.join (Set.disjoint_insert_left.2 ⟨fun h => lt_irrefl n h.2, ?_⟩) hmid
      exact hout.narrow le_rfl hhi.le
    have hsubset : insert n N ∪ Set.Ico mid n ∪ Set.Ico lo mid ⊆ N ∪ Set.Ico lo hi := by
      refine (join_subset hlo hmid).trans (Set.union_subset (Set.insert_subset ?_ ?_) ?_)
      · exact .inr ⟨hlo.trans hmid, hhi⟩
      · exact Set.subset_union_left
      · exact (Set.Ico_subset_Ico_right hhi.le).trans Set.subset_union_right
    refine (hf.use hκ hcallee fun f' hf' => ?_).mono hsubset
    simp only [usageAll, useAll, hprimitive, Bool.false_eq_true, if_false]
    refine useAll_threads hes hκ hargs fun es' hes' => .pure fun haccepted => ?_
    have hf'' : f'.isPrimitive = false := by
      by_contra hne
      simp [AcceptedTail, checkTail, Bool.eq_true_of_not_eq_false hne] at haccepted
    obtain ⟨hatom, hrest⟩ := (acceptedTail_call hf'').1 haccepted
    obtain ⟨hk', hrest⟩ := then_ok_iff.1 hrest
    obtain ⟨_, hes''⟩ := then_ok_iff.1 hrest
    exact .call (hk hk') hn subset_rfl hf'' (hf' hatom) (hes'.atoms hes'')

/-! ## Functions -/

theorem func_threads {name name' : Option String} {inner : String} {params params' : List String}
    {ss : List Stmt} {body : Build Expr} (hinner : IsAddressName inner)
    (hname : ∀ x ∈ name, IsOrdinary x) (hparams : ∀ x ∈ params, IsOrdinary x)
    (hbody : ∀ κ, IsContinuationName κ → Gen.Yields (GivesTail κ inner M) (body (.var κ))) :
    (func name (inner :: params) body).Threads a lo hi (.func name' params' ss) := by
  have hkeep : Gen.Yields GivesAtom (function name (inner :: params) body) := by
    refine fresh_bind_yields fun n => ?_
    refine (hbody (generated "k" n) ⟨n, rfl⟩).bind fun e he => .pure fun haccepted => ?_
    exact .func ⟨n, rfl⟩ hinner hname hparams (he haccepted)
  exact
    { keep := fun _ => hkeep
      pass := fun _ _ hk => hkeep.bind fun e' he' => .pure fun haccepted =>
        (resume_gives hk he' haccepted).mono Set.subset_union_left
      use := fun _ _ hbuild => hkeep.bind fun e' he' =>
        (hbuild e' he').mono Set.subset_union_left }

end Usage

end Parts

mutual

theorem usage_threads {a : String} :
    ∀ {e : Expr} {lo hi : Nat}, e.Numbered a lo hi → (usage e).Threads a lo hi e
  | .num x, _, _, _ => Usage.leaf_threads (.num x)
  | .str s, _, _, _ => Usage.leaf_threads (.str s)
  | .bool b, _, _, _ => Usage.leaf_threads (.bool b)
  | .null, _, _, _ => Usage.leaf_threads .null
  | .undefined, _, _, _ => Usage.leaf_threads .undefined
  | .var _, _, _, h => Usage.leaf_threads (.var h.1)
  | .array es, _, _, h => usage_array es ▸ Usage.formed_threads (usageAll_threads h) id
      fun _ hes' haccepted => .array (hes'.atoms haccepted)
  | .object fs, _, _, h => usage_object fs ▸ Usage.formed_threads (usageFields_threads h)
      (fun h => (allFieldsAtomic_eq fs).symm.trans h) fun es' hes' haccepted => .object fun f hf =>
        hes' f.2 (List.of_mem_zip hf).2 (accepted_of_mem
          ((checkFields_eq _).symm.trans haccepted) (List.mem_map_of_mem hf))
  | .unary op e, lo, hi, h => usage_unary e op ▸
      Usage.formed_threads
        ⟨hi, Expr.Numbered.le (e := e) h, le_rfl, usage_threads (e := e) h, le_rfl⟩
        (fun h => (Bool.and_true _).trans h) fun _ hes' haccepted =>
          .unary (part_givesAtom hes' 0 haccepted)
  | .binary l r op, _, _, ⟨_, hl, hr⟩ => usage_binary l r op ▸
      Usage.formed_threads (threadTwo (usage_threads hl) (usage_threads hr) hl.le hr.le)
        allAtomic_two fun _ hes' haccepted =>
          have h := then_ok_iff.1 haccepted
          .binary (part_givesAtom hes' 0 h.1) (part_givesAtom hes' 1 h.2)
  | .assign t v, _, _, ⟨_, ht, hv⟩ => usage_assign t v ▸
      Usage.formed_threads (threadTwo (usage_threads ht) (usage_threads hv) ht.le hv.le)
        allAtomic_two fun _ hes' haccepted =>
          have h := then_ok_iff.1 haccepted
          .assign (part_givesAtom hes' 0 h.1) (part_givesAtom hes' 1 h.2)
  | .member o p, _, _, ⟨_, ho, hp⟩ => usage_member o p ▸
      Usage.formed_threads (threadTwo (usage_threads ho) (usage_threads hp) ho.le hp.le)
        allAtomic_two fun _ hes' haccepted =>
          have h := then_ok_iff.1 haccepted
          .member (part_givesAtom hes' 0 h.1) (part_givesAtom hes' 1 h.2)
  | .logic _ _ _, _, _, ⟨_, hl, hr⟩ =>
    Usage.logic_threads (usage_threads hl) (usage_threads hr) hl.le hr.le
  | .cond _ _ _, _, _, ⟨_, _, ht, hc, he⟩ =>
    Usage.cond_threads (usage_threads ht) (usage_threads hc) (usage_threads he) ht.le hc.le he.le
  | .call f es, lo, hi, ⟨mid, hf, hes⟩ => by
    have hcallee := usage_threads hf
    -- A primitive call is an operation on its operands; any other call hands on a continuation.
    cases hprimitive : f.isPrimitive with
    | true =>
      rw [if_pos hprimitive] at hes
      rw [usage_primitive f hprimitive]
      refine Usage.formed_threads ⟨mid, hf.le, exprsNumbered_le hes, hcallee, usageAll_threads hes⟩
        (fun h => ?_) fun es' hes' haccepted => ?_
      · simpa only [Expr.isAtomic, hprimitive, Bool.true_and, allAtomic] using h
      · obtain ⟨_, hf', htail⟩ := accepted_call.1 haccepted
        exact .call (part_givesAtom hes' 0 hf')
          (GivesAtoms.atoms (fun e he => hes' e (List.mem_of_mem_tail he)) htail)
    | false =>
      rw [if_neg (by rw [hprimitive]; exact Bool.false_ne_true)] at hes
      cases es with
      | nil => exact hes.elim
      | cons e es =>
        obtain ⟨n, he, hes, hn⟩ := hes
        exact Usage.call_threads hprimitive hcallee (usageAll_threads hes) hf.le
          (exprsNumbered_le hes) hn he
  | .func name params body, _, _, ⟨_, hname, n, ps, hparams, hps, _, _, hbody⟩ => by
    subst hparams
    exact Usage.func_threads ⟨n, rfl⟩ hname hps fun κ hκ =>
      sequence_threads hbody hκ (outside_empty _ _) fun _ => .var

theorem usageAll_threads {a : String} :
    ∀ {es : List Expr} {lo hi : Nat}, ExprsNumbered a es lo hi →
      ThreadAll a es lo hi
  | [], _, _, h => h
  | _ :: _, _, _, ⟨mid, he, hes⟩ =>
    ⟨mid, he.le, exprsNumbered_le hes, usage_threads he, usageAll_threads hes⟩

theorem usageFields_threads {a : String} :
    ∀ {fs : List (String × Expr)} {lo hi : Nat}, FieldsNumbered a fs lo hi →
      ThreadAll a (fs.map Prod.snd) lo hi
  | [], _, _, h => h
  | (_, _) :: _, _, _, ⟨mid, he, hfs⟩ =>
    ⟨mid, he.le, fieldsNumbered_le hfs, usage_threads he, usageFields_threads hfs⟩

theorem bindAll_threads {a κ : String} {N : Set Nat} :
    ∀ {ds : List (String × Expr)} {lo hi : Nat} {tail : Gen Expr}, (∀ d ∈ ds, IsOrdinary d.1) →
      FieldsNumbered a ds lo hi → IsContinuationName κ → Outside lo hi N →
      Gen.Yields (GivesTail κ a N) tail →
      Gen.Yields (GivesTail κ a (N ∪ Set.Ico lo hi)) (bindAll ds tail)
  | [], _, _, _, _, _, _, _, htail => htail.mono Set.subset_union_left
  | (x, e) :: ds, lo, hi, tail, hnames, ⟨mid, he, hds⟩, hκ, hout, htail => by
    obtain ⟨hx, hnames⟩ := List.forall_mem_cons.1 hnames
    have hmid := fieldsNumbered_le hds
    have hrest := bindAll_threads hnames hds hκ (hout.narrow he.le le_rfl) htail
    have hnext {d : Usage} (e' : Expr) (hd : d.Threads a lo mid e') :
        Gen.Yields (GivesTail κ a (N ∪ Set.Ico lo hi))
          (bindAll ds tail >>= fun rest => d.pass (.lambda [x] rest)) := by
      refine hrest.bind fun rest hrest => ?_
      exact (hd.pass hκ (hout.join hmid) (lambda_follows hx hrest)).mono (join_subset he.le hmid)
    have hvalue := usage_threads he
    cases e with
    | func name params body =>
      cases name with
      | none =>
        -- A function without a name is named after the variable that it is declared for.
        obtain ⟨_, _, n, ps, rfl, hps, _, _, hbody⟩ := he
        have hself : ∀ y ∈ some x, IsOrdinary y := by
          rintro _ ⟨⟩
          exact hx
        exact hnext (.func none [] []) (Usage.func_threads ⟨n, rfl⟩ hself hps fun κ hκ =>
          sequence_threads hbody hκ (outside_empty _ _) fun _ => .var)
      | some f => exact hnext _ hvalue
    | _ => exact hnext _ hvalue

theorem sequence_threads {a κ : String} {N : Set Nat} :
    ∀ {ss : List Stmt} {lo hi : Nat} {k : Expr}, StmtsNumbered a ss lo hi →
      IsContinuationName κ → Outside lo hi N → (Accepted k → Follows κ a N k) →
      Gen.Yields (GivesTail κ a (N ∪ Set.Ico lo hi)) (sequence ss k)
  | [], _, _, k, _, _, _, hk => .pure fun haccepted =>
    (resume_gives hk (fun _ => .undefined) haccepted).mono Set.subset_union_left
  | .empty :: rest, lo, hi, k, ⟨mid, h, hrest⟩, hκ, hout, hk =>
    have hrest' := sequence_threads (stmtsNumbered_widen hrest h le_rfl) hκ hout hk
    hrest'
  | .ret e :: rest, lo, hi, k, ⟨mid, h, hrest⟩, hκ, hout, hk =>
    have he := usage_threads (e := e) h
    have hmid := stmtsNumbered_le hrest
    (he.pass hκ (hout.narrow le_rfl hmid) hk).mono
      (Set.union_subset_union_right N (Set.Ico_subset_Ico_right hmid))
  | .declare ds :: rest, lo, hi, k, ⟨mid, h, hrest⟩, hκ, hout, hk => by
    have hle := fieldsNumbered_le h.2
    have hmid := stmtsNumbered_le hrest
    have htail := sequence_threads hrest hκ (hout.narrow hle le_rfl) hk
    exact (bindAll_threads h.1 h.2 hκ (hout.join hmid) htail).mono (join_subset hle hmid)
  | .expr e :: rest, lo, hi, k, ⟨mid, h, hrest⟩, hκ, hout, hk => by
    have hle := Expr.Numbered.le (e := e) h
    have hmid := stmtsNumbered_le hrest
    rw [sequence_expr]
    refine (following_threads Set.subset_union_left hk
      (sequence_threads hrest hκ (hout.narrow hle le_rfl) hk)).bind fun k' hk' => ?_
    exact ((usage_threads (e := e) h).pass hκ (hout.join hmid) hk').mono (join_subset hle hmid)
  | .block body :: rest, lo, hi, k, ⟨mid, h, hrest⟩, hκ, hout, hk => by
    have hbody : StmtsNumbered a body lo mid := h
    have hle := stmtsNumbered_le hbody
    have hmid := stmtsNumbered_le hrest
    rw [sequence_block]
    refine (following_threads Set.subset_union_left hk
      (sequence_threads hrest hκ (hout.narrow hle le_rfl) hk)).bind fun k' hk' => ?_
    exact (sequence_threads hbody hκ (hout.join hmid) hk').mono (join_subset hle hmid)
  | .ifElse t c e :: rest, lo, hi, k, ⟨mid, ⟨mid', ht, hc, he⟩, hrest⟩, hκ, hout, hk => by
    have hle := ht.le.trans (stmtsNumbered_le hc)
    have hmid := stmtsNumbered_le hrest
    rw [sequence_choice]
    refine (following_threads Set.subset_union_left hk
      (sequence_threads hrest hκ (hout.narrow hle le_rfl) hk)).bind fun k' hk' => ?_
    refine (nameContinuation_threads hκ hk' (hout.join hmid) fun κ' hκ' => ?_).mono
      (join_subset hle hmid)
    refine Usage.choice_threads (usage_threads ht) ht.le (stmtsNumbered_le hc) hκ' fun t' ht' => ?_
    -- The arms go on with the named continuation, so neither has used a name yet.
    refine (sequence_threads hc hκ' (outside_empty _ _) fun _ => .var).bind fun c' hc' => ?_
    refine (sequence_threads he hκ' (outside_empty _ _) fun _ => .var).bind fun e' he' => .pure ?_
    refine Usage.cond_gives_tail ht' hc' he' ?_ ?_ <;> rw [Set.empty_union]

end

/-! ## Programs -/

mutual

theorem returning_names : ∀ s : Stmt, s.returning.names = s.names
  | .block body => returnLast_names body
  | .ifElse t c a => by
    simp only [Stmt.returning, Stmt.names, returnLast_names c, returnLast_names a]
  | .expr _ | .empty | .declare _ | .ret _ => rfl

theorem returnLast_names : ∀ ss : List Stmt, stmtsNames (returnLast ss) = stmtsNames ss
  | [] => rfl
  | [s] => by simp only [returnLast, stmtsNames, returning_names s]
  | s :: t :: ss => by simp only [returnLast, stmtsNames, returnLast_names (t :: ss)]

end

theorem addressFunction_numbered {name : Option String} {params : List String} {body : List Stmt}
    (h : ∀ x ∈ (Expr.func name params body).names, IsOrdinary x) :
    (addressFunction name params body).Numbered "" 0 0 := by
  have h := List.forall_mem_append.1 h
  have h' := List.forall_mem_append.1 h.2
  have hbody := addressStmts_numbered (generated "address" 0) body h'.2 1
  exact ⟨le_rfl, fun x hx => h.1 x (Option.mem_toList.2 hx), 0, params, rfl, h'.1, _, _, hbody⟩

end Compile

/-- A compiled program is one function in threaded code, if its identifiers are ordinary. -/
theorem Program.compile_threaded {p q : Program} (h : p.compile = .ok q)
    (hnames : ∀ x ∈ stmtsNames p.body, IsOrdinary x) :
    ∃ name params body, q.body = [.expr (.func name params body)] ∧
      Atom (.func name params body) := by
  obtain ⟨addressed, ha, h⟩ := exists_ok_of_bind h
  obtain ⟨converted, hc, h⟩ := exists_ok_of_bind h
  obtain ⟨name, params, body, e, hbody, he, rfl⟩ := Program.mapFunction_ok h
  obtain ⟨_, haccepted, he⟩ := exists_ok_of_bind he
  cases he
  obtain ⟨name', params', body', e', hbody', he', rfl⟩ := Program.mapFunction_ok hc
  cases he'
  obtain ⟨name'', params'', body'', e'', hbody'', he'', rfl⟩ := Program.mapFunction_ok ha
  cases he''
  obtain ⟨rfl, rfl, rfl⟩ : none = name'' ∧ [] = params'' ∧ returnLast p.body = body'' := by
    simpa [Program.thunk] using hbody''
  have hordinary : ∀ x ∈ (Expr.func none [] (returnLast p.body)).names, IsOrdinary x := by
    simpa [Expr.names, Compile.returnLast_names] using hnames
  have hnumbered := Compile.addressFunction_numbered hordinary
  have hfunction : Compile.addressFunction none [] (returnLast p.body) =
      .func name' params' body' := by
    simpa using hbody'
  have hcode : Compile.convertFunction name' params' body' = .func name params body := by
    simpa using hbody
  rw [hfunction] at hnumbered
  have hthreads := Compile.usage_threads (Compile.flatten_numbered hnumbered)
  have hkeep := hthreads.keep rfl 0
  refine ⟨name, params, body, rfl, ?_⟩
  rw [← hcode] at haccepted ⊢
  exact hkeep haccepted

end Chance
