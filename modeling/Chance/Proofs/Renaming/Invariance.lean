import Mathlib.Data.Fintype.Sum
import Chance.Proofs.Likeness.Data
import Chance.Proofs.Renaming.Library
import Chance.Proofs.Renaming.Steps
import Chance.Proofs.Machine.Outcomes

/-!
# Renamed programs run alike

Renaming the identifiers of a program changes neither whether it compiles nor what it does, as long
as the renaming leaves alone the names that compilation makes up and the name of the store, and
what the program finds bound: a name of the library that is renamed may not be used free, and no
other name may become one of the library.

- `exists_isRenaming`: a renaming of the names of a program is part of one of all names,
- `Front.lockstep`: the functions in front of a program are bound alike,
- `renamed_programs_run_alike`: renamed programs compile and run alike.
-/

namespace Chance

/-! ## Renamings of some names -/

variable {env : Env} {source x : String} {e e' : Expr} {m : Machine} {fuel : Nat} {xs : List String}
  {p : Program} {before : List Stmt}

/-- The names that compilation and evaluation know by themselves. -/
def IsReserved (x : String) : Prop :=
  IsGenerated x ∨ x = Expr.storeName

/-- A renaming of some names that is injective on them can be extended to all names. -/
theorem exists_isRenaming {σ : String → String} {N : List String}
    (hinj : Set.InjOn σ {x | x ∈ N})
    (hplain : ∀ x ∈ N, σ x ≠ x → ¬ IsReserved x ∧ ¬ IsReserved (σ x)) :
    ∃ τ, IsRenaming τ ∧ ∀ x ∈ N, τ x = σ x := by
  let U : Finset String := N.toFinset ∪ N.toFinset.image σ
  have hN {x : String} (hx : x ∈ N) : x ∈ U := by simp [U, hx]
  have hσN {x : String} (hx : x ∈ N) : σ x ∈ U :=
    Finset.mem_union_right _ (Finset.mem_image_of_mem σ (List.mem_toFinset.2 hx))
  let s : Finset U := Finset.univ.filter fun u => u.1 ∈ N
  have hmem {u : U} : u ∈ s ↔ u.1 ∈ N := by simp [s]
  have himage : Finset.image (fun u : U => σ u.1) s ⊆ U := by
    intro y hy
    obtain ⟨u, hu, rfl⟩ := Finset.mem_image.1 hy
    exact hσN (hmem.1 hu)
  have hinjOn : Set.InjOn (fun u : U => σ u.1) s := by
    intro u hu v hv huv
    exact Subtype.ext (hinj (hmem.1 hu) (hmem.1 hv) huv)
  -- The names and their images are finitely many, so that the renaming permutes them.
  obtain ⟨g, hg⟩ := Finset.exists_equiv_extend_of_card_eq (Fintype.card_coe U) himage hinjOn
  let τ : String → String := fun x => if h : x ∈ U then (g ⟨x, h⟩ : String) else x
  have hin {x : String} (h : x ∈ U) : τ x = g ⟨x, h⟩ := dif_pos h
  have hout {x : String} (h : x ∉ U) : τ x = x := dif_neg h
  have hagree {x : String} (hx : x ∈ N) : τ x = σ x := by
    rw [hin (hN hx)]
    exact hg ⟨x, hN hx⟩ (hmem.2 hx)
  have hreserved {x : String} (hx : IsReserved x) : τ x = x := by
    by_cases hU : x ∈ U
    · -- A reserved name among them is a name of the program, since no other is renamed to it.
      have hxN : x ∈ N := by
        rcases Finset.mem_union.1 hU with h | h
        · exact List.mem_toFinset.1 h
        · obtain ⟨y, hy, rfl⟩ := Finset.mem_image.1 h
          have hy := List.mem_toFinset.1 hy
          by_cases hmoved : σ y = y
          · rwa [hmoved]
          · exact absurd hx (hplain y hy hmoved).2
      rw [hagree hxN]
      by_contra hmoved
      exact (hplain x hxN hmoved).1 hx
    · exact hout hU
  refine ⟨τ, ⟨?_, fun hx => hreserved (.inl hx), hreserved (.inr rfl)⟩, fun x hx => hagree hx⟩
  intro x y hxy
  by_cases hx : x ∈ U <;> by_cases hy : y ∈ U
  · rw [hin hx, hin hy] at hxy
    exact congrArg Subtype.val (g.injective (Subtype.ext hxy))
  · rw [hin hx, hout hy] at hxy
    exact absurd (hxy ▸ (g ⟨x, hx⟩).2) hy
  · rw [hout hx, hin hy] at hxy
    exact absurd (hxy ▸ (g ⟨y, hy⟩).2) hx
  · rwa [hout hx, hout hy] at hxy

/-! ## Scopes beside themselves -/

/-- The renaming takes no name outside the set to or from this one. -/
def Untouched (σ : String → String) (X : Set String) (x : String) : Prop :=
  ∀ z, z ∉ X → σ z ≠ z → x ≠ z ∧ x ≠ σ z

theorem envRenamed_self {σ : String → String} {X : Set String}
    (h : ∀ frame ∈ env, ∀ b ∈ frame, Untouched σ X b.1) : EnvRenamed σ X env env := by
  intro x hx
  by_cases hmoved : σ x = x
  · rw [hmoved]
    exact lookup?_rel (fun _ _ _ _ => .refl _) x
  · rw [lookup?_eq_none fun frame hframe b hb => (h frame hframe b hb x hx hmoved).1,
      lookup?_eq_none fun frame hframe b hb => (h frame hframe b hb x hx hmoved).2]
    exact .none

theorem untouched_generated {σ : String → String} (hσ : IsRenaming σ) (X : Set String)
    (hx : IsGenerated x) : Untouched σ X x := by
  intro z _ hmoved
  have hfixed := hσ.generated hx
  constructor
  · rintro rfl
    exact hmoved hfixed
  · rintro rfl
    exact hmoved (hσ.injective hfixed)

/-! ## States beside themselves -/

theorem Engine.Renamed.refl (e : Engine) : e.Renamed e where
  id := rfl
  floor := Nat.zero_le _
  floor' := Nat.zero_le _
  score := rfl
  frontier := .same fun _ _ => ⟨.refl _, .refl _, rfl, StoreRenamed.refl _⟩
  tally := List.forall₂_same.2 fun _ _ => ⟨rfl, .refl _, rfl, rfl⟩
  completed := rfl
  done := rfl
  limit := rfl
  k := .refl _
  address := rfl
  store := StoreRenamed.refl _

theorem Machine.Renamed.refl (m : Machine) : m.Renamed m where
  store := StoreRenamed.refl _
  output _ := rfl
  counters := rfl
  floor := Nat.zero_le _
  floor' := Nat.zero_le _
  tables _ := List.forall₂_same.2 fun t _ => ⟨rfl, StoreRenamed.refl _⟩
  stack := by
    refine ⟨_, _, (List.append_nil _).symm, (List.append_nil _).symm, List.forall₂_same.2 ?_⟩
    intro c _
    cases c with
    | engine e => exact .engine (Engine.Renamed.refl e)
    | script i => exact .script i trivial
  scripts _ := List.forall₂_same.2 fun _ _ => ⟨rfl, rfl⟩
  supply _ := rfl

/-! ## Runs -/

/-- Whether running the body of a function to the end takes the text of no function. -/
def Expr.quietFor (fuel : Nat) (env : Env) (e : Expr) (m : Machine) : Bool :=
  e.isQuietTail env m && (evalTail env e).after m fun s m => s.quietFor fuel m

section Binding

variable (x : String) (e : Expr) (name : Option String) (params : List String) (body : List Stmt)
  (env : Env) (m : Machine)

/-- The scope after a function has been bound. -/
def boundEnv : Env :=
  [(x, .closure (m.nextId + 1) name params body env)] :: env

theorem bind_drive_zero :
    (evalTail env (.call (.lambda [x] e) [.func name params body]) >>= Step.drive 0) m =
      .ok none { m with nextId := m.nextId + 2 } :=
  rfl

theorem bind_drive_succ (fuel : Nat) :
    (evalTail env (.call (.lambda [x] e) [.func name params body]) >>= Step.drive (fuel + 1)) m =
      (evalTail (boundEnv x name params body env m) e >>= Step.drive fuel)
        { m with nextId := m.nextId + 2 } := by
  change Task.drive (fuel + 1) (.call (.closure m.nextId none [x] [.expr e] env)
    [.closure (m.nextId + 1) name params body env]) { m with nextId := m.nextId + 2 } = _
  have hperform : Task.perform (.call (.closure m.nextId none [x] [.expr e] env)
      [.closure (m.nextId + 1) name params body env]) =
      evalTail (boundEnv x name params body env m) e := rfl
  rw [Task.drive_succ, hperform]
  simp only [bind, EStateM.bind]
  cases evalTail (boundEnv x name params body env m) e { m with nextId := m.nextId + 2 } <;> rfl

theorem bind_quietFor (fuel : Nat) :
    (Expr.call (.lambda [x] e) [.func name params body]).quietFor (fuel + 1) env m =
      e.quietFor fuel (boundEnv x name params body env m) { m with nextId := m.nextId + 2 } :=
  rfl

end Binding

variable {σ : String → String} {X : Set String}

theorem evalTail_drive_renamed (hσ : IsRenaming σ) {env' : Env} {n : Machine} (he : e.Avoids X)
    (henv : EnvRenamed σ X env env') (hm : m.Renamed n) (hq : e.quietFor fuel env m = true) :
    Lockstep (Option.Rel Value.Renamed) (evalTail env e >>= Step.drive fuel)
      (evalTail env' (e.rename σ) >>= Step.drive fuel) m n := by
  obtain ⟨hnow, hlater⟩ := Bool.and_eq_true_iff.1 hq
  refine .bind (evalTail_renamed hσ he henv hm hnow) ?_
  intro s s' m' n' hstep hs hm'
  exact Step.drive_renamed fuel hs hm' (after_ok hlater hstep)

/-- The functions in front of a program are bound alike, before the renamed code runs alike. -/
theorem Front.lockstep (hσ : IsRenaming σ) (h : Front (Renames σ X) xs e e') :
    ∀ {env : Env} {m : Machine} {fuel : Nat},
    (∀ frame ∈ env, ∀ b ∈ frame, Untouched σ X b.1) → (∀ x ∈ xs, Untouched σ X x) →
    e.quietFor fuel env m = true →
    Lockstep (Option.Rel Value.Renamed) (evalTail env e >>= Step.drive fuel)
      (evalTail env e' >>= Step.drive fuel) m m := by
  induction h with
  | here h =>
    intro env m fuel henv _ hq
    rw [h.eq]
    exact evalTail_drive_renamed hσ h.avoids (envRenamed_self henv) (.refl m) hq
  | @bind x xs name params body e e' _ ih =>
    intro env m fuel henv hxs hq
    obtain ⟨hx, hxs⟩ := List.forall_mem_cons.1 hxs
    cases fuel with
    | zero =>
      unfold Lockstep
      rw [bind_drive_zero, bind_drive_zero]
      exact .ok .none (.refl _)
    | succ fuel =>
      unfold Lockstep
      rw [bind_drive_succ, bind_drive_succ]
      rw [bind_quietFor] at hq
      refine ih ?_ hxs hq
      exact List.forall_mem_cons.2 ⟨List.forall_mem_singleton.2 hx, henv⟩

theorem Front.run_lockstep (hσ : IsRenaming σ) (h : Front (Renames σ X) xs e e')
    (henv : ∀ frame ∈ env, ∀ b ∈ frame, Untouched σ X b.1) (hxs : ∀ x ∈ xs, Untouched σ X x)
    (hq : e.quietFor fuel env m = true) :
    Lockstep (Option.Rel Value.Renamed) (evalTail env e >>= Step.run fuel)
      (evalTail env e' >>= Step.run fuel) m m := by
  have hdrive := h.lockstep hσ henv hxs hq
  cases h with
  | here h =>
    obtain ⟨hnow, hlater⟩ := Bool.and_eq_true_iff.1 hq
    rw [h.eq]
    refine .bind (evalTail_renamed hσ h.avoids (envRenamed_self henv) (.refl m) hnow) ?_
    intro s s' m' n' hstep hs hm'
    exact (Step.drive_renamed fuel hs hm' (after_ok hlater hstep)).guarded hm'
  | @bind x xs name params body e e' =>
    -- Binding a function does not fail, so that all of the run is guarded.
    let step (e : Expr) : Step := .bounce (.call (.closure m.nextId none [x] [.expr e] env)
      [.closure (m.nextId + 1) name params body env])
    have hafter : Lockstep (Option.Rel Value.Renamed) ((step e).drive fuel) ((step e').drive fuel)
        { m with nextId := m.nextId + 2 } { m with nextId := m.nextId + 2 } := hdrive
    exact hafter.guarded (.refl _)

/-! ## Whole programs -/

/-- The names that a program finds bound. -/
def libraryNames (before : List Stmt) : List String :=
  globalFrame.map Prod.fst ++ before.flatMap Stmt.declared

/-- A renaming of the identifiers of a program which leaves alone what compilation and evaluation
know by name and what the program finds bound before it. -/
structure Program.CanRename (before : List Stmt) (p : Program) (σ : String → String) : Prop where
  /-- Different names stay different; in particular new names are not otherwise used. -/
  injective : Set.InjOn σ {x | x ∈ stmtsNames p.body}
  /-- Neither the old nor the new name is reserved. -/
  reserved : ∀ x ∈ stmtsNames p.body, σ x ≠ x → ¬ IsReserved x ∧ ¬ IsReserved (σ x)
  /-- The new name is none of the library. -/
  target : ∀ x ∈ stmtsNames p.body, σ x ≠ x → σ x ∉ libraryNames before
  /-- A name of the library that is renamed stands for declarations of the program only. -/
  source : ∀ x ∈ stmtsNames p.body, σ x ≠ x → x ∈ libraryNames before → StmtsAvoid p.body {x}

/-- Stores that are the same up to names in the code of functions, and hence the same if they hold
data alone. -/
def SameStore (s t : Store) : Prop :=
  StoreRenamed s t ∧ (fieldsData s = true → s = t)

/-- What two runs end with: the same value, or errors of the same kind, and the same store. Only
functions may differ, in the names in their code. -/
inductive SameOutcome : EStateM.Result Error Machine (Option Value) →
    EStateM.Result Error Machine (Option Value) → Prop
  | value {v w : Value} {m n : Machine} : v.Renamed w → (v.isData = true → v = w) →
      SameStore m.store n.store → SameOutcome (.ok (some v) m) (.ok (some w) n)
  | unfinished {m n : Machine} : SameStore m.store n.store → SameOutcome (.ok none m) (.ok none n)
  | error {e e' : Error} {m n : Machine} : e.kind = e'.kind → SameStore m.store n.store →
      SameOutcome (.error e m) (.error e' n)

theorem Alongside.sameOutcome {r s : EStateM.Result Error Machine (Option Value)}
    (h : Alongside (Option.Rel Value.Renamed) r s) : SameOutcome r s := by
  have hstore {m n : Machine} (hm : m.Renamed n) : SameStore m.store n.store :=
    ⟨hm.store, renamed_semblance.eq_of_fieldsData hm.store⟩
  cases h with
  | ok hab hm =>
    cases hab with
    | none => exact .unfinished (hstore hm)
    | some hv => exact .value hv (renamed_semblance.eq_of_isData hv) (hstore hm)
  | error he hm => exact .error he (hstore hm)

theorem ofCode_quietFor (e : Expr) (fuel : Nat) (m : Machine) :
    (Program.ofCode e).quietFor fuel m =
      e.quietFor fuel (startEnv m) { m with nextId := m.nextId + 2 } :=
  rfl

theorem untouched_startEnv (hσ : IsRenaming σ) (hglobal : ∀ x ∈ globalFrame.map Prod.fst,
    Untouched σ X x) (m : Machine) :
    ∀ frame ∈ startEnv m, ∀ b ∈ frame, Untouched σ X b.1 := by
  have hk : IsGenerated (Compile.generated "k" 0) := ⟨"k", by decide, 0, rfl⟩
  have ha : IsGenerated (Compile.generated "address" 0) := ⟨"address", by decide, 0, rfl⟩
  refine List.forall_mem_cons.2 ⟨?_, List.forall_mem_singleton.2 ?_⟩
  · refine List.forall_mem_cons.2 ⟨untouched_generated hσ X hk, ?_⟩
    exact List.forall_mem_singleton.2 (untouched_generated hσ X ha)
  · exact fun b hb => hglobal b.1 (List.mem_map_of_mem hb)

/-- Whether the characters are those of declarations of functions only. -/
def readsLibrary (cs : List Char) : Bool :=
  match Lexer.lexemes cs with
  | .error _ => false
  | .ok ls =>
    match Grammar.program (ls.map Lexeme.token) with
    | .ok ss => ss.all Stmt.isLibrary
    | .error _ => false

theorem Program.parse_isLibrary (h : readsLibrary source.toList = true)
    (hp : Program.parse source = .ok p) : ∀ s ∈ p.body, s.isLibrary = true := by
  unfold readsLibrary at h
  unfold Program.parse readWith at hp
  split at h
  · cases h
  · rename_i ls hls
    simp only [hls] at hp
    split at h
    · rename_i ss hss
      simp only [hss] at hp
      cases hp
      exact List.all_eq_true.1 h
    · cases h

theorem preludeBody_isLibrary (h : Compile.preludeBody = .ok before) :
    ∀ s ∈ before, s.isLibrary = true := by
  have hreads : readsLibrary ("\n".intercalate Compile.preludeFunctions).toList = true := by
    -- Reading off the characters of one long text is slow, so that they are taken piece by piece.
    rw [String.toList_intercalate]
    simp only [Compile.preludeFunctions, List.map, String.toList_append]
    decide +kernel
  unfold Compile.preludeBody at h
  cases hp : Program.parse ("\n".intercalate Compile.preludeFunctions) with
  | error e =>
    rw [hp] at h
    cases h
  | ok p =>
    rw [hp] at h
    cases h
    exact Program.parse_isLibrary hreads hp

/-- What stands in front of a program. -/
def frontOf (withPrelude : Bool) : Except Error (List Stmt) :=
  if withPrelude then Compile.preludeBody else pure []

theorem frontOf_isLibrary {withPrelude : Bool} (h : frontOf withPrelude = .ok before) :
    ∀ s ∈ before, s.isLibrary = true := by
  cases withPrelude with
  | false =>
    cases h
    exact nofun
  | true => exact preludeBody_isLibrary h

theorem renameStmts_eq {τ : String → String} (h : ∀ x ∈ stmtsNames p.body, τ x = σ x) :
    (p.rename σ).body = renameStmts τ p.body :=
  (renameStmts_congr p.body h).symm

/-- A program and the renamed one, with or without the prelude in front, compile alike: both fail
with errors of one kind, or both succeed. Then from every state their runs end alike, as long as
the run takes the text of no function. -/
theorem renamed_programs_run_alike {withPrelude : Bool} {before : List Stmt}
    (hbefore : frontOf withPrelude = .ok before) {p : Program} {σ : String → String}
    (h : p.CanRename before σ) :
    Agree Error.SameKind
      (fun q q' => ∀ fuel m, q.quietFor fuel m = true →
        SameOutcome (q.run fuel m) (q'.run fuel m))
      (Program.compile ⟨before ++ p.body⟩) (Program.compile ⟨before ++ (p.rename σ).body⟩) := by
  obtain ⟨τ, hτ, hagree⟩ := exists_isRenaming h.injective h.reserved
  -- The names that are taken to or from the library; the program does not use them free.
  let X : Set String := {z | τ z ≠ z ∧ (z ∈ libraryNames before ∨ τ z ∈ libraryNames before)}
  have hplain : Plain X := fun z hz hgenerated => hz.1 (hτ.generated hgenerated)
  have havoid : StmtsAvoid p.body X := by
    refine stmtsAvoid_of_forall fun x hx hX => ?_
    obtain ⟨hmoved, hlibrary⟩ := hX
    rw [hagree x hx] at hmoved hlibrary
    exact h.source x hx hmoved (hlibrary.resolve_right (h.target x hx hmoved))
  have huntouched : ∀ x ∈ libraryNames before, Untouched τ X x := by
    intro x hx z hz hmoved
    refine ⟨?_, ?_⟩
    · rintro rfl
      exact hz ⟨hmoved, .inl hx⟩
    · rintro rfl
      exact hz ⟨hmoved, .inr hx⟩
  obtain ⟨hglobal, hdeclared⟩ := List.forall_mem_append.1 huntouched
  rw [renameStmts_eq hagree]
  refine (Program.compile_front hτ hplain (frontOf_isLibrary hbefore) havoid).weaken ?_
  rintro _ _ ⟨e, e', rfl, rfl, hfront⟩ fuel m hquiet
  rw [ofCode_quietFor] at hquiet
  rw [ofCode_run, ofCode_run]
  exact (hfront.run_lockstep hτ (untouched_startEnv hτ hglobal m) hdeclared hquiet).sameOutcome

/-! ## A name that compilation makes up -/

/-- Replaces one name. -/
def replacing (old new x : String) : String :=
  if x = old then new else x

def capturedSource : String :=
  "var a = true; a"

/-- The program gives `true`, and the renamed one calls what is no function. The name that is
replaced is in the text, and the new one is an identifier that is neither there nor in the
library. -/
theorem capturedSource_fails_when_renamed :
    ∃ p q q' m e m', Program.parse capturedSource = .ok p ∧ isName "_k0" ∧
      "a" ∈ stmtsNames p.body ∧ "_k0" ∉ stmtsNames p.body ∧ "_k0" ∉ libraryNames [] ∧
      p.compile = .ok q ∧ (p.rename (replacing "a" "_k0")).compile = .ok q' ∧
      q.run 20 (.initial default) = .ok (some (.bool true)) m ∧
      q'.run 20 (.initial default) = .error e m' ∧ e.kind = .type := by
  have hcaptured : ∃ p, Program.parse capturedSource = .ok p ∧
      (isName "_k0" ∧ "a" ∈ stmtsNames p.body ∧ "_k0" ∉ stmtsNames p.body ∧
        "_k0" ∉ libraryNames []) ∧
      ∃ q, p.compile = .ok q ∧ ∃ q', (p.rename (replacing "a" "_k0")).compile = .ok q' ∧
        (∃ v m, q.run 20 (.initial default) = .ok (some v) m ∧ v = .bool true) ∧
        ∃ e m', q'.run 20 (.initial default) = .error e m' ∧ e.kind = .type := by
    decide +kernel
  obtain ⟨p, hp, ⟨hname, hold, hnew, hlibrary⟩, q, hq, q', hq', ⟨_, m, hrun, rfl⟩, e, m', hrun',
    hkind⟩ := hcaptured
  exact ⟨p, q, q', m, e, m', hp, hname, hold, hnew, hlibrary, hq, hq', hrun, hrun', hkind⟩

/-! ## A program with its names exchanged -/

/-- Exchanges two names. -/
def exchanging (a b x : String) : String :=
  if x = a then b else if x = b then a else x

theorem exchanging_injective (a b : String) : Function.Injective (exchanging a b) := by
  intro x y h
  unfold exchanging at h
  split_ifs at h <;> simp_all

theorem not_isReserved (hhead : x.toList.head? ≠ some '_') (hstore : x ≠ Expr.storeName) :
    ¬ IsReserved x := by
  rintro (h | h)
  · exact hhead (head_of_isGenerated h)
  · exact hstore h

theorem canRename_exchanging {a b : String} (ha : a.toList.head? ≠ some '_')
    (hb : b.toList.head? ≠ some '_') (hstore : a ≠ Expr.storeName ∧ b ≠ Expr.storeName)
    (hlibrary : a ∉ libraryNames before ∧ b ∉ libraryNames before) (p : Program) :
    p.CanRename before (exchanging a b) := by
  have hmoved {x : String} (h : exchanging a b x ≠ x) :
      x = a ∧ exchanging a b x = b ∨ x = b ∧ exchanging a b x = a := by
    unfold exchanging at h ⊢
    split_ifs at h ⊢ <;> simp_all
  have hra := not_isReserved ha hstore.1
  have hrb := not_isReserved hb hstore.2
  refine ⟨(exchanging_injective a b).injOn, ?_, ?_, ?_⟩
  · intro x _ h
    rcases hmoved h with ⟨rfl, h⟩ | ⟨rfl, h⟩
    · exact ⟨hra, by rwa [h]⟩
    · exact ⟨hrb, by rwa [h]⟩
  · intro x _ h
    rcases hmoved h with ⟨rfl, h⟩ | ⟨rfl, h⟩
    · rw [h]
      exact hlibrary.2
    · rw [h]
      exact hlibrary.1
  · intro x _ h hx
    rcases hmoved h with ⟨rfl, -⟩ | ⟨rfl, -⟩
    · exact absurd hx hlibrary.1
    · exact absurd hx hlibrary.2

def twiceSource : String :=
  "var twice = function(f, x) \x7b return f(f(x)); \x7d; " ++
    "globalStore.r = twice(function(y) \x7b return !y; \x7d, true)"

theorem twiceSource_runs_alike :
    ∃ (p q q' : Program) (m m' : Machine), Program.parse twiceSource = .ok p ∧
      p.compile = .ok q ∧ (p.rename (exchanging "x" "f")).compile = .ok q' ∧
      q.run 100 (.initial default) = .ok (some (.bool true)) m ∧
      q'.run 100 (.initial default) = .ok (some (.bool true)) m' ∧
      SameStore m.store m'.store := by
  have hsource : ∃ p, Program.parse twiceSource = .ok p ∧ ∃ q, p.compile = .ok q ∧
      ∃ q', (p.rename (exchanging "x" "f")).compile = .ok q' ∧
        q.quietFor 100 (.initial default) = true ∧
        ∃ v m, q.run 100 (.initial default) = .ok (some v) m ∧ v = .bool true := by
    decide +kernel
  obtain ⟨p, hp, q, hq, q', hq', hquiet, _, m, hrun, rfl⟩ := hsource
  have hrename : p.CanRename [] (exchanging "x" "f") :=
    canRename_exchanging (by decide) (by decide) (by decide) (by decide +kernel) p
  have hfront : frontOf false = .ok [] := rfl
  have halike := renamed_programs_run_alike hfront hrename
  change Agree _ _ p.compile (p.rename (exchanging "x" "f")).compile at halike
  rw [hq, hq'] at halike
  cases halike with
  | ok halike =>
    have houtcome := halike 100 (.initial default) hquiet
    rw [hrun] at houtcome
    generalize hrun' : q'.run 100 (.initial default) = r at houtcome
    cases houtcome with
    | value _ hdata hstore =>
      obtain rfl := hdata rfl
      exact ⟨p, q, q', m, _, hp, hq, hq', hrun, hrun', hstore⟩

end Chance
