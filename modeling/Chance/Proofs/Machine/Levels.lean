import Chance.Proofs.Machine.Held
import Chance.Proofs.Machine.Sites

/-!
# Continuations and where they belong

A continuation belongs to the enumerations within which it was made, the innermost first: to be
resumed it needs exactly these to be installed. Outside of all enumerations it also has the sites at
which it, or what it hands over to, may still ask. Code that is about to make a call asks below the
address of the call, and whatever follows the call asks elsewhere.

- `Continues`: continuations that belong to given enumerations and ask at given sites only,
- `Task.Fits`: tasks with such continuations,
- `evalTail_calls`, `enterClosure_function`: code hands over to fitting tasks.
-/

namespace Chance

/-! ## Continuations -/

variable {σ : List Nat} {F F' : Set Site} {k : Value}

/-- The value is a continuation that belongs to the enumerations `σ` and asks at sites of `F`
only. -/
inductive Continues : List Nat → Set Site → Value → Prop
  | exit {F : Set Site} {i : Nat} : Continues [] F (.cont i .exit)
  | lambda {σ : List Nat} {F G : Set Site} {i : Nat} {κ a x address : String} {N : Set Nat}
      {e : Expr} {env : Env} {k : Value} :
      IsOrdinary x → Tail κ a N e → EnvHeld env → IsContinuationName κ → IsAddressName a →
      env.lookup? κ = some k → env.lookup? a = some (.str address) → Continues σ G k →
      Disjoint (shown σ (Under address N)) G → shown σ (Under address N) ∪ G ⊆ F →
      Continues σ F (.closure i none [x] [.expr e] env)
  | gather {σ : List Nat} {F G : Set Site} {i index : Nat} {how : Gather} {k f acc item : Value}
      {address : String} {rest : List Value} :
      Continues σ G k → f.Held → ValuesHeld rest → acc.Held → item.Held →
      Disjoint (shown σ (Under address (Set.Ici (index + 1)))) G →
      shown σ (Under address (Set.Ici (index + 1))) ∪ G ⊆ F →
      Continues σ F (.cont i (.collect (.gather how k address f) index rest acc item))
  | weigh {σ : List Nat} {F : Set Site} {i id index : Nat} {k f acc item : Value}
      {address : String} {d : Dist} {store : Store} {base : Float} {rest : List Value} :
      Continues (id :: σ) ∅ k → f.Held → d.Held → StoreHeld store → ValuesHeld rest → acc.Held →
      item.Held →
      Continues (id :: σ) F
        (.cont i (.collect (.weigh id k address d f store base) index rest acc item))
  | remember {σ : List Nat} {F G : Set Site} {i table : Nat} {key : String} {k : Value} :
      Continues σ G k → G ⊆ F → Continues σ F (.cont i (.remember table key k))
  | drawn {σ : List Nat} {F G : Set Site} {i : Nat} {k f : Value} {address : String} :
      Continues σ G k → f.Held → Disjoint (shown σ (Below address)) G →
      shown σ (insert (.factor, address) (Below (subaddress address "sf"))) ∪ G ⊆ F →
      Continues σ F (.cont i (.drawn k address f))
  | scored {σ : List Nat} {F G : Set Site} {i : Nat} {k v : Value} {address : String} :
      Continues σ G k → v.Held → Disjoint (shown σ {(.factor, address)}) G →
      shown σ {(.factor, address)} ∪ G ⊆ F → Continues σ F (.cont i (.scored k address v))
  | weighted {σ : List Nat} {F G : Set Site} {i : Nat} {k v : Value} :
      Continues σ G k → v.Held → G ⊆ F → Continues σ F (.cont i (.weighted k v))
  | leave {σ : List Nat} {F : Set Site} {i id : Nat} :
      Continues (id :: σ) F (.cont i (.leave id))

theorem Continues.mono (h : Continues σ F k) (hF : F ⊆ F') : Continues σ F' k := by
  cases h with
  | exit => exact .exit
  | lambda hx he henv hκ ha hk haddress hcont hapart hwithin =>
    exact .lambda hx he henv hκ ha hk haddress hcont hapart (hwithin.trans hF)
  | gather hk hf hrest hacc hitem hapart hwithin =>
    exact .gather hk hf hrest hacc hitem hapart (hwithin.trans hF)
  | weigh hk hf hd hstore hrest hacc hitem => exact .weigh hk hf hd hstore hrest hacc hitem
  | remember hk hwithin => exact .remember hk (hwithin.trans hF)
  | drawn hk hf hapart hwithin => exact .drawn hk hf hapart (hwithin.trans hF)
  | scored hk hv hapart hwithin => exact .scored hk hv hapart (hwithin.trans hF)
  | weighted hk hv hwithin => exact .weighted hk hv (hwithin.trans hF)
  | leave => exact .leave

theorem Continues.inner (h : Continues σ F k) (hσ : σ ≠ []) : Continues σ ∅ k := by
  have hshown (X : Set Site) : shown σ X = ∅ := by
    cases σ with
    | nil => exact absurd rfl hσ
    | cons => exact shown_cons _ _ X
  induction h with
  | exit => exact absurd rfl hσ
  | lambda hx he henv hκ ha hk haddress _ _ _ ih =>
    refine .lambda hx he henv hκ ha hk haddress (ih hσ hshown) (Set.disjoint_empty _) ?_
    rw [hshown, Set.union_empty]
  | gather _ hf hrest hacc hitem _ _ ih =>
    refine .gather (ih hσ hshown) hf hrest hacc hitem (Set.disjoint_empty _) ?_
    rw [hshown, Set.union_empty]
  | weigh hk hf hd hstore hrest hacc hitem => exact .weigh hk hf hd hstore hrest hacc hitem
  | remember _ _ ih => exact .remember (ih hσ hshown) subset_rfl
  | drawn _ hf _ _ ih =>
    refine .drawn (ih hσ hshown) hf (Set.disjoint_empty _) ?_
    rw [hshown, Set.union_empty]
  | scored _ hv _ _ ih =>
    refine .scored (ih hσ hshown) hv (Set.disjoint_empty _) ?_
    rw [hshown, Set.union_empty]
  | weighted _ hv _ ih => exact .weighted (ih hσ hshown) hv subset_rfl
  | leave => exact .leave

theorem Continues.head?_eq {σ' : List Nat} (h : Continues σ F k) (h' : Continues σ' F' k) :
    σ.head? = σ'.head? := by
  induction h generalizing σ' F' with
  | exit =>
    cases h'
    rfl
  | lambda _ he _ _ _ hk _ _ _ _ ih =>
    cases h' with
    | lambda _ he' _ _ _ hk' _ hcont' =>
      -- The code names one current continuation, so both readings look up the same value.
      obtain rfl := Tail.unique _ he he'
      cases hk.symm.trans hk'
      exact ih hcont'
  | gather _ _ _ _ _ _ _ ih =>
    cases h' with
    | gather hk' => exact ih hk'
  | weigh | leave =>
    cases h'
    rfl
  | remember _ _ ih =>
    cases h' with
    | remember hk' => exact ih hk'
  | drawn _ _ _ _ ih =>
    cases h' with
    | drawn hk' => exact ih hk'
  | scored _ _ _ _ ih =>
    cases h' with
    | scored hk' => exact ih hk'
  | weighted _ _ _ ih =>
    cases h' with
    | weighted hk' => exact ih hk'

/-! ## Tasks -/

/-- What the loop still has to do from the given item on fits, but for what it has gathered. -/
inductive Loop.Fits (σ : List Nat) (F : Set Site) : Loop → Nat → List Value → Prop
  | gather {G : Set Site} {how : Gather} {k f : Value} {address : String} {index : Nat}
      {rest : List Value} :
      Continues σ G k → f.Held → ValuesHeld rest →
      Disjoint (shown σ (Under address (Set.Ici index))) G →
      shown σ (Under address (Set.Ici index)) ∪ G ⊆ F →
      Loop.Fits σ F (.gather how k address f) index rest
  | weigh {id index : Nat} {k f : Value} {address : String} {d : Dist} {store : Store}
      {base : Float} {rest : List Value} {σ' : List Nat} :
      σ = id :: σ' → Continues σ ∅ k → f.Held → d.Held → StoreHeld store → ValuesHeld rest →
      Loop.Fits σ F (.weigh id k address d f store base) index rest

/-- Tasks that belong to the enumerations `σ` and ask at sites of `F` only. -/
inductive Task.Fits (σ : List Nat) (F : Set Site) : Task → Prop
  /-- A call at an address, below which the function may ask. -/
  | call {G : Set Site} {f k : Value} {address : String} {vs : List Value} :
      f.Held → Continues σ G k → ValuesHeld vs → Disjoint (shown σ (Below address)) G →
      shown σ (Below address) ∪ G ⊆ F → Task.Fits σ F (.call f (k :: .str address :: vs))
  | resume {k v : Value} : Continues σ F k → v.Held → Task.Fits σ F (.call k [v])
  /-- A continuation gets a name. -/
  | name {G : Set Site} {i : Nat} {κ a address : String} {N : Set Nat} {e : Expr} {env : Env}
      {k : Value} :
      Tail κ a N e → EnvHeld env → IsContinuationName κ → IsAddressName a →
      env.lookup? a = some (.str address) → Continues σ G k →
      Disjoint (shown σ (Under address N)) G → shown σ (Under address N) ∪ G ⊆ F →
      Task.Fits σ F (.call (.closure i none [κ] [.expr e] env) [k])
  | turn {l : Loop} {index : Nat} {rest : List Value} {acc : Value} :
      l.Fits σ F index rest → acc.Held → Task.Fits σ F (.turn l index rest acc)
  | iterate {l : Loop} {index : Nat} {rest : List Value} {acc : Value} :
      l.Fits σ F index rest → acc.Held → Task.Fits σ F (.iterate l index rest acc)
  /-- An enumeration is about to be installed. -/
  | enter {e : Engine} {thunk : Value} {i : Nat} :
      Continues σ F e.k → e.frontier.toList = [] → e.tally.entries = [] → StoreHeld e.store →
      thunk.Held → (∀ j ∈ σ, j < e.id) → Task.Fits σ F (.enter e thunk (.cont i (.leave e.id)))

theorem Task.Fits.inner {i : Nat} {f : Value} {vs : List Value} (hf : f.Held)
    (hk : Continues (i :: σ) ∅ k) (hvs : ValuesHeld vs) (address : String) :
    Task.Fits (i :: σ) F (.call f (k :: .str address :: vs)) := by
  refine .call hf hk hvs (Set.disjoint_empty _) ?_
  rw [shown_cons, Set.union_empty]
  exact Set.empty_subset F

/-! ## Names -/

theorem generated_ne_storeName (hint : String) (n : Nat) :
    Compile.generated hint n ≠ Expr.storeName := by
  intro h
  have hhead := congrArg (fun s => s.toList.head?) h
  simp only [generated_toList, List.head?_cons] at hhead
  revert hhead
  decide

theorem IsContinuationName.ne_storeName {κ : String} (h : IsContinuationName κ) :
    κ ≠ Expr.storeName := by
  obtain ⟨n, rfl⟩ := h
  exact generated_ne_storeName _ n

theorem IsAddressName.ne_storeName {a : String} (h : IsAddressName a) : a ≠ Expr.storeName := by
  obtain ⟨n, rfl⟩ := h
  exact generated_ne_storeName _ n

/-! ## Code in tail position -/

/-- A path through a function that was called at an address: the scopes, the current continuation
and the address, which code with numbers in `N` may extend. -/
structure Activation (σ : List Nat) (F : Set Site) (κ a : String) (N : Set Nat) (env : Env)
    (k : Value) (address : String) (G : Set Site) : Prop where
  held : EnvHeld env
  continuationName : IsContinuationName κ
  addressName : IsAddressName a
  lookup_continuation : env.lookup? κ = some k
  lookup_address : env.lookup? a = some (.str address)
  continues : Continues σ G k
  apart : Disjoint (shown σ (Under address N)) G
  within : shown σ (Under address N) ∪ G ⊆ F

section Activations

variable {σ : List Nat} {F G : Set Site} {κ a address x : String} {N M : Set Nat} {env : Env}
  {k : Value} {m : Machine} {c e : Expr} {P : Value → Prop} {es : List Expr}

theorem Activation.narrow (h : Activation σ F κ a N env k address G) (hM : M ⊆ N) :
    Activation σ (shown σ (Under address M) ∪ G) κ a M env k address G where
  held := h.held
  continuationName := h.continuationName
  addressName := h.addressName
  lookup_continuation := h.lookup_continuation
  lookup_address := h.lookup_address
  continues := h.continues
  apart := h.apart.mono_left (shown_mono σ (under_mono hM))
  within := subset_rfl

theorem Activation.widen {F' : Set Site} (h : Activation σ F κ a N env k address G)
    (hF : F ⊆ F') : Activation σ F' κ a N env k address G :=
  { h with within := h.within.trans hF }

theorem Activation.subset (h : Activation σ F κ a N env k address G) (hM : M ⊆ N) :
    shown σ (Under address M) ∪ G ⊆ F :=
  (Set.union_subset_union_left G (shown_mono σ (under_mono hM))).trans h.within

theorem Activation.lambda (h : Activation σ F κ a N env k address G) (hx : IsOrdinary x)
    (he : Tail κ a N e) (i : Nat) : Continues σ F (.closure i none [x] [.expr e] env) :=
  .lambda hx he h.held h.continuationName h.addressName h.lookup_continuation h.lookup_address
    h.continues h.apart h.within

theorem eval_var {v : Value} (hx : x ≠ Expr.storeName) (hv : env.lookup? x = some v) :
    eval env (.var x) m = .ok v m := by
  simp only [eval, if_neg hx, hv]
  rfl

theorem eval_extended (ha : IsAddressName a) (h : env.lookup? a = some (.str address)) (n : Nat) :
    eval env (Compile.extended a (.str (Compile.generated "" n))) m =
      .ok (.str (subaddress address (toString n))) m := by
  have hname : subaddress address (toString n) = address ++ Compile.generated "" n := by
    apply String.toList_inj.1
    simp [subaddress, Compile.generated]
  rw [hname]
  simp only [Compile.extended, eval, Expr.isPrimitive, evalAll, if_neg ha.ne_storeName, h]
  rfl

theorem eval_follows (h : Activation σ F κ a N env k address G) (hc : Follows κ a N c)
    (hm : m.Held) : (eval env c).Stays (Continues σ F) m := by
  cases hc with
  | var =>
    have hvalue : eval env (.var κ) m = .ok k m :=
      eval_var h.continuationName.ne_storeName h.lookup_continuation
    exact .of_eq hvalue hm (h.continues.mono (Set.subset_union_right.trans h.within))
  | lambda hx he => exact .bind (.freshId hm) fun i _ _ hn => .pure hn.held (h.lambda hx he i)

theorem evalAll_cons {Q : List Value → Prop} (h : (eval env e).Stays P m)
    (hs : ∀ n, m.Settles n → (evalAll env es).Stays Q n) :
    (evalAll env (e :: es)).Stays (fun vs => ∃ v ws, vs = v :: ws ∧ P v ∧ Q ws) m :=
  .bind h fun v n hv hn => .bind (hs n hn) fun ws _ hws hn' => .pure hn'.held ⟨v, ws, rfl, hv, hws⟩

theorem evalAll_single (h : (eval env e).Stays P m) :
    (evalAll env [e]).Stays (fun vs => ∃ v, vs = [v] ∧ P v) m :=
  .bind h fun v _ hv hn => .pure hn.held ⟨v, rfl, hv⟩

theorem eval_lambda (x : String) (e : Expr) (hm : m.Held) :
    (eval env (.lambda [x] e)).Stays (fun v => ∃ i, v = .closure i none [x] [.expr e] env) m :=
  .bind (.freshId hm) fun i _ _ hn => .pure hn.held ⟨i, rfl⟩

theorem evalAll_caller (h : Activation σ F κ a N env k address G) (hc : Follows κ a N c)
    (hes : ∀ e ∈ es, Atom e) (i : Nat) (hm : m.Held) :
    (evalAll env (c :: Compile.extended a (.str (Compile.generated "" i)) :: es)).Stays
      (fun vs => ∃ v ws, vs = v :: ws ∧ Continues σ F v ∧ ∃ w ws', ws = w :: ws' ∧
        w = .str (subaddress address (toString i)) ∧ ValuesHeld ws') m := by
  refine evalAll_cons (eval_follows h hc hm) fun n hn => ?_
  refine evalAll_cons ?_ fun n' hn' => evalAll_stays h.held hes hn'.held
  exact .of_eq (eval_extended h.addressName h.lookup_address i) hn.held rfl

/-- The step calls something, in a task that fits. -/
def Step.Calls (σ : List Nat) (F : Set Site) (s : Step) : Prop :=
  ∃ f args, s = .bounce (.call f args) ∧ Task.Fits σ F (.call f args)

/-- The call of a function at the number that is next. -/
theorem Activation.call (h : Activation σ F κ a N env k address G) {n : Nat} (hn : n ∉ M)
    (hM : insert n M ⊆ N) {f c : Value} {vs : List Value} (hf : f.Held)
    (hc : Continues σ (shown σ (Under address M) ∪ G) c) (hvs : ValuesHeld vs) :
    Task.Fits σ F (.call f (c :: .str (subaddress address (toString n)) :: vs)) := by
  have hbelow : Below (subaddress address (toString n)) ⊆ Under address N :=
    below_subset_under (hM (Set.mem_insert n M))
  refine .call hf hc hvs (Set.disjoint_union_right.2 ⟨?_, ?_⟩) (Set.union_subset ?_ ?_)
  · exact shown_disjoint σ (disjoint_below_under hn)
  · exact h.apart.mono_left (shown_mono σ hbelow)
  · exact (shown_mono σ hbelow).trans (Set.subset_union_left.trans h.within)
  · exact h.subset ((Set.subset_insert n M).trans hM)

theorem evalTail_calls (he : Tail κ a N e) (h : Activation σ F κ a N env k address G)
    (hm : m.Held) : (evalTail env e).Stays (Step.Calls σ F) m := by
  fun_induction evalTail env e generalizing N m with
  | case1 t c e ihc ihe =>
    cases he with
    | cond ht hc he hN hN' =>
      refine .bind (eval_stays h.held ht hm) fun v n _ hn => ?_
      have harm {M : Set Nat} (hM : M ⊆ N) : Activation σ F κ a M env k address G :=
        (h.narrow hM).widen (h.subset hM)
      split_ifs
      · exact ihc hc (harm hN) hn.held
      · exact ihe he (harm hN') hn.held
  | case2 f args hprimitive =>
    -- The callee of threaded code is no primitive one.
    cases he with
    | resume hk => cases hk <;> cases hprimitive
    | call _ _ _ hf => exact absurd hprimitive (by rw [hf]; exact Bool.false_ne_true)
    | name => cases hprimitive
  | case3 f args hprimitive =>
    cases he with
    | resume hk hN hv =>
      refine .bind (eval_follows (h.narrow hN) hk hm) fun c n hc hn => ?_
      refine .bind (evalAll_single (eval_stays h.held hv hn.held)) fun vs n' hvs hn' => ?_
      obtain ⟨v, rfl, hv'⟩ := hvs
      exact .pure hn'.held ⟨c, [v], rfl, .resume (hc.mono (h.subset hN)) hv'⟩
    | call hk hnumber hN _ hf hes =>
      have hM := (Set.subset_insert _ _).trans hN
      refine .bind (eval_stays h.held hf hm) fun g n hg hn => ?_
      refine .bind (evalAll_caller (h.narrow hM) hk hes _ hn.held) fun vs n' hvs hn' => ?_
      obtain ⟨c, _, rfl, hc, _, ws, rfl, rfl, hws⟩ := hvs
      exact .pure hn'.held ⟨g, _, rfl, h.call hnumber hN hg hc hws⟩
    | name hκ' hk he hdisjoint hN =>
      have hM := Set.subset_union_left.trans hN
      have hM' := Set.subset_union_right.trans hN
      refine .bind (eval_lambda _ _ hm) fun g n hg hn => ?_
      obtain ⟨i, rfl⟩ := hg
      refine .bind (evalAll_single (eval_follows (h.narrow hM) hk hn.held)) fun vs n' hvs hn' => ?_
      obtain ⟨c, rfl, hc⟩ := hvs
      refine .pure hn'.held ⟨_, _, rfl, .name he h.held hκ' h.addressName h.lookup_address hc ?_ ?_⟩
      · refine Set.disjoint_union_right.2 ⟨shown_disjoint σ (disjoint_under hdisjoint.symm), ?_⟩
        exact h.apart.mono_left (shown_mono σ (under_mono hM'))
      · refine Set.union_subset ?_ (h.subset hM)
        exact Set.subset_union_left.trans (h.subset hM')
  | case4 e hcond hcall =>
    cases he with
    | cond => exact absurd rfl (hcond _ _ _)
    | resume | call | name => exact absurd rfl (hcall _ _)

end Activations

/-! ## Calls of closures -/

section Closures

variable {σ : List Nat} {F G : Set Site} {κ a address : String} {N : Set Nat} {env : Env} {e : Expr}
  {k v : Value} {i : Nat} {m : Machine} {params : List String} {name : Option String}
  {vs : List Value}

theorem envHeld_cons {frame : Frame} (hframe : ∀ b ∈ frame, IsOrdinary b.1 → b.2.Held)
    (henv : EnvHeld env) : EnvHeld (frame :: env) :=
  List.forall_mem_cons.2 ⟨hframe, henv⟩

theorem bindParams_function (self : Value) (name : Option String) (params : List String)
    (vs : List Value) :
    bindParams self name (κ :: a :: params) (k :: .str address :: vs) =
      bindParams self name [] [] ++ (κ, k) :: (a, .str address) ::
        params.zipIdx.map fun (x, i) => (x, argument vs i) := by
  simp only [bindParams, List.zipIdx_cons', List.map_cons, List.map_map, List.zipIdx_nil,
    List.map_nil, List.append_nil, Function.comp_def, Prod.map]
  rfl

theorem lookup?_continuation (self : Value) (name : Option String) (vs : List Value) (env : Env)
    (ha : a ≠ κ) (hparams : ∀ x ∈ params, x ≠ κ) :
    Env.lookup? (bindParams self name (κ :: a :: params) (k :: .str address :: vs) :: env) κ =
      some k := by
  rw [bindParams_function]
  refine lookup?_here (List.forall_mem_cons.2 ⟨ha, List.forall_mem_map.2 fun x hx => ?_⟩)
  exact hparams _ (List.fst_mem_of_mem_zipIdx hx)

theorem lookup?_address (self : Value) (name : Option String) (vs : List Value) (env : Env)
    (hparams : ∀ x ∈ params, x ≠ a) :
    Env.lookup? (bindParams self name (κ :: a :: params) (k :: .str address :: vs) :: env) a =
      some (.str address) := by
  rw [bindParams_function, List.append_cons]
  refine lookup?_here (List.forall_mem_map.2 fun x hx => ?_)
  exact hparams _ (List.fst_mem_of_mem_zipIdx hx)

theorem activation_function {self : Value} (hself : self.Held) (hname : ∀ x ∈ name, IsOrdinary x)
    (hparams : ∀ x ∈ params, IsOrdinary x) (hκ : IsContinuationName κ) (ha : IsAddressName a)
    (henv : EnvHeld env) (hk : Continues σ G k) (hvs : ValuesHeld vs)
    (hapart : Disjoint (shown σ (Below address)) G) (hwithin : shown σ (Below address) ∪ G ⊆ F) :
    Activation σ F κ a N
      (bindParams self name (κ :: a :: params) (k :: .str address :: vs) :: env) k address G := by
  have hown : ∀ b ∈ bindParams self name [] [], b.2.Held := by
    cases name with
    | none => exact nofun
    | some f => exact List.forall_mem_singleton.2 hself
  have hgiven : ∀ b ∈ params.zipIdx.map fun (x, i) => (x, argument vs i),
      IsOrdinary b.1 ∧ b.2.Held := by
    refine List.forall_mem_map.2 fun x hx => ⟨hparams _ ?_, argument_held hvs _⟩
    exact List.fst_mem_of_mem_zipIdx hx
  have hunder : shown σ (Under address N) ⊆ shown σ (Below address) :=
    shown_mono σ (under_subset address N)
  exact
    { held := by
        rw [bindParams_function]
        refine envHeld_cons (List.forall_mem_append.2 ⟨fun b hb _ => hown b hb, ?_⟩) henv
        refine List.forall_mem_cons.2 ⟨fun h => absurd hκ h.notContinuation, ?_⟩
        exact List.forall_mem_cons.2 ⟨fun h => absurd ha h.notAddress,
          fun b hb _ => (hgiven b hb).2⟩
      continuationName := hκ
      addressName := ha
      lookup_continuation := lookup?_continuation self name vs env (ha.ne_continuation hκ)
        fun x hx => (hparams x hx).ne_continuation hκ
      lookup_address := lookup?_address self name vs env fun x hx => (hparams x hx).ne_address ha
      continues := hk
      apart := hapart.mono_left hunder
      within := (Set.union_subset_union_left G hunder).trans hwithin }

/-- A function of the program makes calls below the address at which it is called. -/
theorem enterClosure_function {body : List Stmt} (hf : Atom (.func name params body))
    (henv : EnvHeld env) (hk : Continues σ G k) (hvs : ValuesHeld vs)
    (hapart : Disjoint (shown σ (Below address)) G) (hwithin : shown σ (Below address) ∪ G ⊆ F)
    (hm : m.Held) :
    (enterClosure i name params body env (k :: .str address :: vs)).Stays (Step.Calls σ F) m := by
  have hself : (Value.closure i name params body env).Held := .closure hf henv
  cases hf with
  | func hκ ha hname hparams he =>
    exact evalTail_calls he
      (activation_function hself hname hparams hκ ha henv hk hvs hapart hwithin) hm

theorem enterClosure_continuation {x : String}
    (h : Continues σ F (.closure i none [x] [.expr e] env)) (hv : v.Held) (hm : m.Held) :
    (enterClosure i none [x] [.expr e] env [v]).Stays (Step.Calls σ F) m := by
  cases h with
  | lambda hx he henv hκ ha hk haddress hcont hapart hwithin =>
    refine evalTail_calls he ⟨?_, hκ, ha, ?_, ?_, hcont, hapart, hwithin⟩ hm
    · exact envHeld_cons (List.forall_mem_singleton.2 fun _ => hv) henv
    · rw [← hk]
      exact lookup?_outside (List.forall_mem_singleton.2 (hx.ne_continuation hκ))
    · rw [← haddress]
      exact lookup?_outside (List.forall_mem_singleton.2 (hx.ne_address ha))

theorem enterClosure_name (he : Tail κ a N e) (henv : EnvHeld env) (hκ : IsContinuationName κ)
    (ha : IsAddressName a) (haddress : env.lookup? a = some (.str address)) (hk : Continues σ G k)
    (hapart : Disjoint (shown σ (Under address N)) G)
    (hwithin : shown σ (Under address N) ∪ G ⊆ F) (hm : m.Held) :
    (enterClosure i none [κ] [.expr e] env [k]).Stays (Step.Calls σ F) m := by
  refine evalTail_calls he ⟨?_, hκ, ha, ?_, ?_, hk, hapart, hwithin⟩ hm
  · exact envHeld_cons (List.forall_mem_singleton.2 fun h => absurd hκ h.notContinuation) henv
  · exact lookup?_bound env κ k
  · rw [← haddress]
    exact lookup?_outside (List.forall_mem_singleton.2 (ha.ne_continuation hκ).symm)

end Closures

end Chance
