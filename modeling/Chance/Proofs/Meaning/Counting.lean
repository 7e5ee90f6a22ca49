import Chance.Proofs.Meaning.Direct

/-!
# Counting names

The conversion numbers the names that it makes up, and the numbers only grow. So code that was made
earlier mentions lower numbers, and the names that surrounding code binds cannot capture what it
mentions.

- `Compile.Gen.Counts`: computations after which the count is not lower,
- `Compile.usage_counts`, `Compile.sequence_counts`: the conversion is such a computation,
- `IsFresh`: names that are made up from some count on,
- `Env.Agrees`: scopes that differ in such names only.
-/

namespace Chance

namespace Compile

/-- The count is not lower afterwards. -/
def Gen.Counts {α : Type} (x : Gen α) : Prop :=
  ∀ n, n ≤ (x.run n).2

section Counts

variable {α β : Type} {build : Build Expr}

theorem Gen.Counts.pure (a : α) : Gen.Counts (pure a) := fun n => le_refl n

theorem Gen.Counts.bind {x : Gen α} {f : α → Gen β} (hx : x.Counts) (hf : ∀ a, (f a).Counts) :
    (x >>= f).Counts :=
  fun n => (hx n).trans (hf (x.run n).1 (x.run n).2)

theorem fresh_counts (hint : String) : Gen.Counts (fresh hint) := fun n => Nat.le_succ n

theorem nameContinuation_counts (k : Expr) (h : ∀ e, (build e).Counts) :
    (nameContinuation k build).Counts := by
  unfold nameContinuation
  split
  · exact h _
  · exact .bind (fresh_counts _) fun _ => .bind (h _) fun _ => .pure _

theorem useResult_counts {pass : Build Expr} (hpass : ∀ k, (pass k).Counts)
    (hbuild : ∀ e, (build e).Counts) : (useResult pass build).Counts :=
  .bind (fresh_counts _) fun _ => .bind (hbuild _) fun _ => hpass _

theorem ignoring_counts {rest : Gen Expr} (h : rest.Counts) : (ignoring rest).Counts :=
  .bind (fresh_counts _) fun _ => .bind h fun _ => .pure _

theorem following_counts {ss : List Stmt} {k : Expr} (h : (sequence ss k).Counts) :
    (following ss k).Counts := by
  unfold following
  split_ifs
  · exact .pure k
  · exact ignoring_counts h

/-- All that a usage makes counts on. -/
structure Usage.Counts (d : Usage) : Prop where
  keep : d.keep.Counts
  pass : ∀ k, (d.pass k).Counts
  use : ∀ {build : Build Expr}, (∀ e, (build e).Counts) → (d.use build).Counts

namespace Usage

variable {atomic : Bool} {keep : Gen Expr} {pass : Build Expr} {ds : List Usage}

theorem make_counts {use : Build Expr → Gen Expr} (hkeep : keep.Counts)
    (hpass : ∀ k, (pass k).Counts)
    (huse : ∀ {build : Build Expr}, (∀ e, (build e).Counts) → (use build).Counts) :
    (make atomic keep pass use).Counts where
  keep := hkeep
  pass := hpass
  use := by
    intro build hbuild
    simp only [make]
    split_ifs
    · exact .bind hkeep hbuild
    · exact huse hbuild

theorem named_counts (hkeep : keep.Counts) (hpass : ∀ k, (pass k).Counts) :
    (make atomic keep pass (useResult pass)).Counts :=
  make_counts hkeep hpass fun hbuild => useResult_counts hpass hbuild

theorem leaf_counts (e : Expr) : (leaf e).Counts where
  keep := .pure _
  pass := fun _ => .pure _
  use := fun h => h e

theorem keepAll_counts (h : ∀ d ∈ ds, d.Counts) : (keepAll ds).Counts := by
  induction ds with
  | nil => exact .pure _
  | cons d ds ih =>
    rcases List.forall_mem_cons.1 h with ⟨hd, hds⟩
    exact .bind hd.keep fun _ => .bind (ih hds) fun _ => .pure _

theorem useAll_counts (h : ∀ d ∈ ds, d.Counts) {build : Build (List Expr)}
    (hbuild : ∀ es, (build es).Counts) : (useAll ds build).Counts := by
  induction ds generalizing build with
  | nil => exact hbuild []
  | cons d ds ih =>
    rcases List.forall_mem_cons.1 h with ⟨hd, hds⟩
    exact hd.use fun _ => ih hds fun _ => hbuild _

theorem formed_counts {named : Bool} {wrap : List Expr → Expr} (h : ∀ d ∈ ds, d.Counts) :
    (formed atomic named wrap ds).Counts := by
  have hkeep : (keepAll ds >>= fun es => pure (wrap es)).Counts :=
    .bind (keepAll_counts h) fun _ => .pure _
  have hpass (k : Expr) : (useAll ds fun es => pure (resume k (wrap es))).Counts :=
    useAll_counts h fun _ => .pure _
  cases named with
  | true => exact named_counts hkeep hpass
  | false => exact make_counts hkeep hpass fun hbuild => useAll_counts h fun _ => hbuild _

theorem func_counts (name : Option String) (params : List String) {body : Build Expr}
    (h : ∀ k, (body k).Counts) : (func name params body).Counts where
  keep := .bind (fresh_counts _) fun _ => .bind (h _) fun _ => .pure _
  pass := fun _ => .bind (.bind (fresh_counts _) fun _ => .bind (h _) fun _ => .pure _)
    fun _ => .pure _
  use := fun hbuild => .bind (.bind (fresh_counts _) fun _ => .bind (h _) fun _ => .pure _) hbuild

end Usage

open Usage

mutual

theorem usage_counts : ∀ e : Expr, (usage e).Counts
  | .array es => usage_array es ▸ formed_counts (usageAll_counts es)
  | .object fs => usage_object fs ▸ formed_counts (usageFields_counts fs)
  | .unary op e => usage_unary e op ▸ formed_counts (List.forall_mem_singleton.2 (usage_counts e))
  | .binary l r op => usage_binary l r op ▸
      formed_counts (forall_mem_two (usage_counts l) (usage_counts r))
  | .assign t v =>
    usage_assign t v ▸ formed_counts (forall_mem_two (usage_counts t) (usage_counts v))
  | .member o p =>
    usage_member o p ▸ formed_counts (forall_mem_two (usage_counts o) (usage_counts p))
  | .logic l r op => by
    refine named_counts
      (.bind (usage_counts l).keep fun _ => .bind (usage_counts r).keep fun _ => .pure _)
      fun k => nameContinuation_counts k fun k => (usage_counts l).use fun _ =>
        .bind ((usage_counts r).pass k) fun _ => ?_
    cases op with
    | and => exact .pure _
    | or => exact .pure _
  | .cond t c a =>
    named_counts
      (.bind (usage_counts t).keep fun _ => .bind (usage_counts c).keep fun _ =>
        .bind (usage_counts a).keep fun _ => .pure _)
      fun k => nameContinuation_counts k fun k => (usage_counts t).use fun _ =>
        .bind ((usage_counts c).pass k) fun _ => .bind ((usage_counts a).pass k) fun _ => .pure _
  | .call f es =>
    named_counts
      (.bind (usage_counts f).keep fun _ => .bind (keepAll_counts (usageAll_counts es)) fun _ =>
        .pure _)
      fun _ => (usage_counts f).use fun _ => useAll_counts (usageAll_counts es) fun _ => .pure _
  | .func name params body => func_counts name params fun k => sequence_counts body k
  | .num _ | .str _ | .bool _ | .null | .undefined | .var _ => leaf_counts _

theorem usageAll_counts : ∀ es : List Expr, ∀ d ∈ usageAll es, d.Counts
  | [] => nofun
  | e :: es => List.forall_mem_cons.2 ⟨usage_counts e, usageAll_counts es⟩

theorem usageFields_counts :
    ∀ fs : List (String × Expr), ∀ d ∈ usageAll (fs.map Prod.snd), d.Counts
  | [] => nofun
  | (_, e) :: fs => List.forall_mem_cons.2 ⟨usage_counts e, usageFields_counts fs⟩

theorem bindAll_counts :
    ∀ (ds : List (String × Expr)) {tail : Gen Expr}, tail.Counts → (bindAll ds tail).Counts
  | [], _, htail => htail
  | (x, e) :: ds, tail, htail => by
    have hnext {d : Usage} (hd : d.Counts) :
        (bindAll ds tail >>= fun rest => d.pass (.lambda [x] rest)).Counts :=
      .bind (bindAll_counts ds htail) fun _ => hd.pass _
    have he := usage_counts e
    cases e with
    | func name params body =>
      cases name with
      | none => exact hnext (func_counts (some x) params fun k => sequence_counts body k)
      | some f => exact hnext he
    | _ => exact hnext he

theorem sequence_counts : ∀ (ss : List Stmt) (k : Expr), (sequence ss k).Counts
  | [], _ => .pure _
  | .empty :: rest, k => sequence_counts rest k
  | .ret e :: _, k => (usage_counts e).pass k
  | .declare ds :: rest, k => bindAll_counts ds (sequence_counts rest k)
  | .expr e :: ss, k => sequence_expr e ss k ▸
      .bind (following_counts (sequence_counts ss k)) (usage_counts e).pass
  | .block body :: ss, k => sequence_block body ss k ▸
      .bind (following_counts (sequence_counts ss k)) (sequence_counts body)
  | .ifElse t c a :: ss, k => sequence_choice t c a ss k ▸
      .bind (following_counts (sequence_counts ss k)) fun k => nameContinuation_counts k fun k =>
        (usage_counts t).use fun _ =>
          .bind (sequence_counts c k) fun _ => .bind (sequence_counts a k) fun _ => .pure _

end

end Counts

end Compile

/-! ## Made-up names -/

/-- Names that the conversion makes up once it has counted so far. -/
def IsFresh (count : Nat) (x : String) : Prop :=
  ∃ hint ∈ ["k", "result", "dummy"], ∃ n, count ≤ n ∧ x = Compile.generated hint n

section Fresh

variable {c d n : Nat} {x hint : String}

theorem isFresh_generated (h : hint ∈ ["k", "result", "dummy"]) (hn : c ≤ n) :
    IsFresh c (Compile.generated hint n) :=
  ⟨hint, h, n, hn, rfl⟩

theorem IsFresh.mono (h : IsFresh d x) (hcd : c ≤ d) : IsFresh c x := by
  rcases h with ⟨hint, hhint, n, hn, rfl⟩
  exact isFresh_generated hhint (hcd.trans hn)

theorem IsFresh.isGenerated (h : IsFresh c x) : IsGenerated x := by
  rcases h with ⟨hint, hhint, n, _, rfl⟩
  refine ⟨hint, ?_, n, rfl⟩
  revert hhint
  simp only [nameHints, List.mem_cons, List.not_mem_nil]
  tauto

theorem IsAddressName.isGenerated (h : IsAddressName x) : IsGenerated x := by
  rcases h with ⟨m, rfl⟩
  exact ⟨"address", by simp [nameHints], m, rfl⟩

theorem IsAddressName.not_isFresh (h : IsAddressName x) : ¬ IsFresh c x := by
  rcases h with ⟨m, rfl⟩
  rintro ⟨hint, hhint, n, _, heq⟩
  simp only [List.mem_cons, List.not_mem_nil, or_false] at hhint
  rcases hhint with rfl | rfl | rfl <;> exact generated_ne m n rfl rfl (by decide) heq

theorem generated_injective {hint' : String} (h : hint ∈ ["k", "result", "dummy"])
    (h' : hint' ∈ ["k", "result", "dummy"]) {m : Nat}
    (heq : Compile.generated hint m = Compile.generated hint' n) : m = n := by
  simp only [List.mem_cons, List.not_mem_nil, or_false] at h h'
  -- Different hints begin with different letters.
  rcases h with rfl | rfl | rfl <;> rcases h' with rfl | rfl | rfl <;>
    first
    | exact generated_inj heq
    | exact absurd heq (generated_ne m n rfl rfl (by decide))

theorem not_isFresh_of_lt (h : hint ∈ ["k", "result", "dummy"]) (hn : n < c) :
    ¬ IsFresh c (Compile.generated hint n) := by
  rintro ⟨hint', h', m, hm, heq⟩
  have := generated_injective h h' heq
  omega

end Fresh

/-- The second scope has the same names in it as the first, up to names made up later. -/
def Env.Agrees (count : Nat) (env env' : Env) : Prop :=
  ∀ x, ¬ IsFresh count x → env'.lookup? x = env.lookup? x

namespace Env.Agrees

variable {c d : Nat} {env env' env'' : Env}

theorem refl (c : Nat) (env : Env) : env.Agrees c env := fun _ _ => rfl

theorem mono (h : env.Agrees d env') (hcd : c ≤ d) : env.Agrees c env' :=
  fun x hx => h x fun hfresh => hx (hfresh.mono hcd)

theorem trans (h : env.Agrees c env') (h' : env'.Agrees d env'') (hcd : c ≤ d) :
    env.Agrees c env'' :=
  fun x hx => (h'.mono hcd x hx).trans (h x hx)

/-- Binding a name that is made up later changes nothing. -/
theorem bind (h : env.Agrees c env') {x : String} (hx : IsFresh c x) (v : Value) :
    env.Agrees c ([(x, v)] :: env') := by
  intro y hy
  have hne : x ≠ y := by
    rintro rfl
    exact hy hx
  rw [lookup?_outside (List.forall_mem_singleton.2 hne)]
  exact h y hy

end Env.Agrees

end Chance
