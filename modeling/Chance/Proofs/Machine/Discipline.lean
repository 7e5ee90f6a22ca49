import Chance.Proofs.Machine.Tower

/-!
# Steps keep the tower

Every task that fits the tower ends in one that fits: the innermost enumeration answers whatever the
run asks within it, a continuation is resumed where it belongs, and the result of an enumeration
goes to the continuation of its call.

- `Builtin.run_outcome`, `resume_outcome`, `Loop.iterate_outcome`: the parts of a step,
- `Task.perform_outcome`: a step.
-/

namespace Chance

section Steps

variable {S : List Coroutine} {T G : Set Site} {σ : List Nat} {t : Task} {m n : Machine} {d : Dist}
  {x : Exec Step} {acc k v : Value} {address : String} {index : Nat} {l : Loop}

/-! ## Asking -/

/-- The step goes on at a continuation. -/
def Step.Resumes (k : Value) (s : Step) : Prop :=
  ∃ v, s = .resume k v ∧ v.Held

theorem sampleAt_resumes (hS : Bare m.stack) (hm : m.Held) (hd : d.Held) (k : Value)
    (address : String) (options : Value) :
    (sampleAt k address d options).Stays (Step.Resumes k) m := by
  unfold sampleAt Exec.Stays
  rw [currentCoroutine_bind]
  rcases hS.head? with hhead | ⟨i, hhead⟩
  · rw [hhead]
    have hdrawn := held_inherited.likeness.sample (distLike_itself hd) m.supply
    exact ⟨⟨_, rfl, hdrawn.1.2⟩, rfl, le_rfl, hm.store, hm.tables⟩
  · rw [hhead]
    obtain ⟨hvalue, hgrows⟩ := held_inherited.answer hd hm.store i address options
    exact ⟨⟨_, rfl, hvalue⟩, hgrows.settles hm⟩

theorem factorAt_resumes (hS : Bare m.stack) (hm : m.Held) (k : Value) (address : String)
    (x : Float) : (factorAt k address x).Stays (Step.Resumes k) m := by
  unfold factorAt Exec.Stays
  rw [currentCoroutine_bind]
  rcases hS.head? with hhead | ⟨i, hhead⟩
  · rw [hhead]
    rfl
  · rw [hhead]
    exact ⟨⟨_, rfl, .undefined⟩, (note_grows hm.store i address x).settles hm⟩

theorem Outcome.of_resumes (hm : m.Fits S T σ) (hn : m.Settles n) (hk : Continues σ (shown σ T) k)
    (h : x.Stays (Step.Resumes k) n) : Outcome S T t m (x n) := by
  refine .of_stays hm hn h ?_
  rintro _ ⟨v, rfl, hv⟩
  exact ⟨_, rfl, .resume hk hv, rfl⟩

theorem sampleAt_outcome (hS : Bare S) (hm : m.Fits S T σ) (hn : m.Settles n)
    (hstore : n.store = m.store) (hk : Continues σ (shown σ T) k) (hd : d.Held) (address : String)
    (options : Value) : Outcome S T t m (sampleAt k address d options n) := by
  cases σ with
  | nil =>
    have hbare : Bare n.stack := by rwa [hn.stack, hm.tower.eq_base]
    exact .of_resumes hm hn hk (sampleAt_resumes hbare hn.held hd k address options)
  | cons i σ =>
    obtain ⟨e, outer, hstack, rfl, hworking⟩ := hm.working hn hstore
    rw [shown_cons] at hk
    unfold sampleAt
    rw [currentCoroutine_bind, hstack]
    exact hworking.sample hS hk hd

theorem factorAt_outcome (hS : Bare S) (hm : m.Fits S T σ) (hn : m.Settles n)
    (hstore : n.store = m.store) (hk : Continues σ (shown σ T) k) (address : String) (x : Float) :
    Outcome S T t m (factorAt k address x n) := by
  cases σ with
  | nil =>
    have hbare : Bare n.stack := by rwa [hn.stack, hm.tower.eq_base]
    exact .of_resumes hm hn hk (factorAt_resumes hbare hn.held k address x)
  | cons i σ =>
    obtain ⟨e, outer, hstack, rfl, hworking⟩ := hm.working hn hstore
    rw [shown_cons] at hk
    unfold factorAt
    rw [currentCoroutine_bind, hstack]
    exact hworking.factor hS hk x

theorem factor_below_subset (address : String) :
    insert (.factor, address) (Below (subaddress address "sf")) ⊆ Below address :=
  Set.insert_subset (mem_below_self _ _) (below_subaddress _ _)

theorem newCont_stays (hm : m.Held) (c : Cont) :
    (Exec.newCont c).Stays (fun v => v = .cont m.nextId c) m :=
  .bind (.freshId hm) fun i _ hi hn => .pure hn.held (by rw [hi])

theorem setStore_stays (hm : m.Held) {store : Store} (h : StoreHeld store) :
    (Exec.setStore store).Stays (fun _ => True) m :=
  ⟨trivial, rfl, le_rfl, h, hm.tables⟩

theorem sampleWithFactorAt_outcome (hS : Bare S) (hm : m.Fits S T σ) {score : Value}
    (hk : Continues σ G k) (hd : d.Held) (hscore : score.Held)
    (hapart : Disjoint (shown σ (Below address)) G)
    (hwithin : shown σ (Below address) ∪ G ⊆ shown σ T) :
    Outcome S T t m (sampleWithFactorAt k address d score m) := by
  unfold sampleWithFactorAt
  rw [currentCoroutine_bind]
  cases σ with
  | nil =>
    have hafter (i : Nat) : Continues [] (shown [] T) (.cont i (.drawn k address score)) := by
      refine .drawn hk hscore hapart ((Set.union_subset_union_left G ?_).trans hwithin)
      exact shown_mono [] (factor_below_subset address)
    have hask : Outcome S T t m
        ((Exec.newCont (.drawn k address score) >>= fun after =>
          sampleAt after address d .undefined) m) := by
      have hn : m.Settles { m with nextId := m.nextId + 1 } :=
        ⟨rfl, Nat.le_succ _, hm.held.store, hm.held.tables⟩
      exact sampleAt_outcome hS hm hn rfl (hafter _) hd address .undefined
    rw [hm.tower.eq_base]
    rcases hS.head? with hhead | ⟨i, hhead⟩ <;> rw [hhead] <;> exact hask
  | cons i σ =>
    obtain ⟨e, outer, hstack, rfl, hworking⟩ := hm.working hm.held.settles rfl
    rw [hstack]
    exact hworking.sampleWithFactor address (hk.inner (List.cons_ne_nil _ _)) hd hscore

theorem startEnumeration_outcome (hm : m.Fits S T σ) {thunk : Value}
    (hk : Continues σ (shown σ T) k) (hthunk : thunk.Held) (address : String)
    (options : EnumerateOptions) :
    Outcome S T t m (startEnumeration k address thunk options m) := by
  refine .goes rfl (hm.settles ⟨rfl, ?_, hm.held.store, hm.held.tables⟩)
    (.enter hk (Frontier.toList_empty _) rfl hm.held.store hthunk hm.next) ?_
    (.calls rfl rfl le_rfl ?_ rfl rfl)
  · exact (Nat.le_succ _).trans (Nat.le_succ _)
  · exact (Nat.le_succ _).trans (Nat.le_succ _)
  · exact (Nat.lt_succ_self _).trans (Nat.lt_succ_self _)

/-! ## Functions that decide how the run goes on -/

section Calls

variable {k f : Value} {address : String} {vs : List Value}

theorem iterate_outcome (hm : m.Fits S T σ) (hk : Continues σ G k)
    (hapart : Disjoint (shown σ (Below address)) G)
    (hwithin : shown σ (Below address) ∪ G ⊆ shown σ T) (how : Gather) (hf : f.Held)
    {items : List Value} (hitems : ValuesHeld items) :
    Outcome S T t m (.ok (.through (.iterate (.gather how k address f) 0 items how.start)) m) := by
  have hunder : shown σ (Under address (Set.Ici 0)) ⊆ shown σ (Below address) :=
    shown_mono σ (under_subset address _)
  have hstart : how.start.Held := by
    cases how with
    | forEach => exact .undefined
    | map | filter | times => exact .array (List.forall_mem_nil _)
  refine .next hm hm.held.settles rfl (.iterate (.gather hk hf hitems ?_ ?_) hstart) rfl
  · exact hapart.mono_left hunder
  · exact (Set.union_subset_union_left G hunder).trans hwithin

theorem Builtin.run_outcome (hS : Bare S) (hm : m.Fits S T σ) (hk : Continues σ G k)
    (hvs : ValuesHeld vs) (hapart : Disjoint (shown σ (Below address)) G)
    (hwithin : shown σ (Below address) ∪ G ⊆ shown σ T) (b : Builtin) :
    Outcome S T t m (b.run (k :: .str address :: vs) m) := by
  have hhalt : Halt m m := .stays rfl
  -- The continuation may use all that is left of the sites of the run.
  have hk' : Continues σ (shown σ T) k := hk.mono (Set.subset_union_right.trans hwithin)
  have hgather (how : Gather) :
      Outcome S T t m (gatherCalls how (k :: .str address :: vs) m) := by
    refine .lift hhalt fun caller hcaller => ?_
    cases hcaller
    refine .lift hhalt fun items hitems => ?_
    exact iterate_outcome hm hk hapart hwithin how (argument_held hvs 0)
      (held_inherited.toItems (argument_held hvs 1) hitems)
  cases b with
  | map => exact hgather .map
  | filter => exact hgather .filter
  | forEach => exact hgather .forEach
  | times =>
    refine .lift hhalt fun caller hcaller => ?_
    cases hcaller
    refine .lift hhalt fun x _ => ?_
    dsimp only
    split_ifs
    · exact .throw hm.held.settles _
    · refine iterate_outcome hm hk hapart hwithin .times (argument_held hvs 1) fun v hv => ?_
      rw [List.eq_of_mem_replicate hv]
      exact .undefined
  | cache =>
    simp only [Builtin.run, makeCached]
    split_ifs
    · refine .bind hm.held.settles (.freshId hm.held) fun i n _ hn => ?_
      exact .resume hm hn hk' (.cached (argument_held hvs 0))
    · exact .throw hm.held.settles _
  | sample =>
    refine .lift hhalt fun caller hcaller => ?_
    cases hcaller
    refine .lift hhalt fun d hd => ?_
    exact sampleAt_outcome hS hm hm.held.settles rfl hk'
      (held_inherited.toDist (argument_held hvs 0) hd) _ _
  | factor =>
    refine .lift hhalt fun caller hcaller => ?_
    cases hcaller
    refine .lift hhalt fun x _ => ?_
    exact factorAt_outcome hS hm hm.held.settles rfl hk' _ x
  | sampleWithFactor =>
    refine .lift hhalt fun caller hcaller => ?_
    cases hcaller
    refine .lift hhalt fun d hd => ?_
    exact sampleWithFactorAt_outcome hS hm hk (held_inherited.toDist (argument_held hvs 0) hd)
      (argument_held hvs 1) hapart hwithin
  | incrementalize =>
    have hcall {items : List Value} (hitems : ValuesHeld items) : Outcome S T t m
        (.ok (.through (.call (argument vs 0) (k :: .str address :: items))) m) :=
      .next hm hm.held.settles rfl (.call (argument_held hvs 0) hk hitems hapart hwithin) rfl
    refine .lift hhalt fun caller hcaller => ?_
    cases hcaller
    have hargument : (argument (k :: .str address :: vs) 3).Held := argument_held hvs 1
    dsimp only
    generalize argument (k :: .str address :: vs) 3 = v at hargument ⊢
    cases v with
    | undefined => exact hcall (List.forall_mem_nil _)
    | _ => exact .lift hhalt fun items hitems => hcall (held_inherited.toItems hargument hitems)
  | enumerate =>
    refine .lift hhalt fun caller hcaller => ?_
    cases hcaller
    dsimp only
    split_ifs
    · refine .lift hhalt fun options _ => ?_
      exact startEnumeration_outcome hm hk' (argument_held hvs 0) _ options
    · exact .throw hm.held.settles _
  | infer =>
    refine .lift hhalt fun caller hcaller => ?_
    cases hcaller
    refine .lift hhalt fun options _ => ?_
    exact startEnumeration_outcome hm hk' (argument_held hvs 1) _ options

theorem remember_settles (hm : m.Held) (table : Nat) (key : String) {v : Value} (hv : v.Held) :
    m.Settles (m.remember table key v) :=
  ⟨rfl, le_rfl, hm.store, remember_inherits (Q := fun _ _ v => v.Held) hm.tables hv⟩

theorem callCached_outcome (hm : m.Fits S T σ) (hk : Continues σ G k) (hvs : ValuesHeld vs)
    (hapart : Disjoint (shown σ (Below address)) G)
    (hwithin : shown σ (Below address) ∪ G ⊆ shown σ T) (table : Nat) (hf : f.Held) :
    Outcome S T t m (callCached table f (k :: .str address :: vs) m) := by
  rw [callCached, Exec.get_bind]
  cases hcached : m.cached? table (Value.array vs).text with
  | some v =>
    rw [List.drop_succ_cons, List.drop_one, List.tail_cons, hcached]
    exact .resume hm hm.held.settles (hk.mono (Set.subset_union_right.trans hwithin))
      (cached?_inherits (Q := fun _ _ v => v.Held) hm.held.tables hcached)
  | none =>
    rw [List.drop_succ_cons, List.drop_one, List.tail_cons, hcached]
    refine .bind hm.held.settles (newCont_stays hm.held _) fun after n hafter hn => ?_
    subst hafter
    exact .next hm hn rfl (.call hf (.remember hk subset_rfl) hvs hapart hwithin) rfl

end Calls

/-! ## Loops -/

theorem Working.live {e : Engine} {f : Engine → Exec Step} (h : Working S T σ m e n)
    (hf : Outcome S T t m (f e n)) : Outcome S T t m ((Engine.live e.id >>= f) n) := by
  obtain ⟨_, outer, _, hstack, _⟩ := h.stack
  rw [Engine.live_bind, engine?_onTop hstack]
  dsimp only
  split_ifs
  · exact .fails h.halt
  · exact hf

theorem Loop.collect_outcome (hS : Bare S) (hm : m.Fits S T σ) {i : Nat} {rest : List Value}
    {item : Value} (h : Continues σ (shown σ T) (.cont i (.collect l index rest acc item)))
    (hv : v.Held) : Outcome S T t m (l.collect index rest acc item v m) := by
  cases h with
  | gather hk hf hrest hacc hitem hapart hwithin =>
    exact .next hm hm.held.settles rfl
      (.turn (.gather hk hf hrest hapart hwithin) (held_inherited.gatherNext _ hacc hitem hv)) rfl
  | weigh hk hf hd hstore hrest hacc hitem =>
    refine .lift (.stays rfl) fun extra _ => ?_
    obtain ⟨e, outer, hstack, rfl, hworking⟩ := hm.working hm.held.settles rfl
    refine hworking.live ?_
    have hpushed (x : Float) : Engine.Fits _
        { e with frontier := e.frontier.push ⟨_, item, x, m.store⟩ } :=
      { hworking.fits with
        entries := Frontier.forall_mem_push hworking.fits.entries ⟨hk, hitem, hm.held.store⟩ }
    exact (hworking.save hS (hpushed _) rfl rfl rfl push_stores).outcome rfl
      (.turn (.weigh rfl hk hf hd hstore hrest) .undefined) rfl

/-- The next item of a loop, or its end. -/
theorem Loop.iterate_outcome (hS : Bare S) (hm : m.Fits S T σ) {items : List Value}
    (h : l.Fits σ (shown σ T) index items) (hacc : acc.Held) :
    Outcome S T t m (l.iterate index items acc m) := by
  cases h with
  | @gather _ _ _ _ address _ _ hk hf hitems hapart hwithin =>
    cases items with
    | nil => exact .resume hm hm.held.settles (hk.mono (Set.subset_union_right.trans hwithin)) hacc
    | cons item rest =>
      obtain ⟨hitem, hrest⟩ := List.forall_mem_cons.1 hitems
      -- The sites under this index go to the call, those under later ones to the loop.
      have hlater : Set.Ici (index + 1) ⊆ Set.Ici index := Set.Ici_subset_Ici.2 (Nat.le_succ index)
      have hbelow : Below (subaddress address (toString index)) ⊆ Under address (Set.Ici index) :=
        below_subset_under Set.self_mem_Ici
      refine .bind hm.held.settles (newCont_stays hm.held _) fun after n hafter hn => ?_
      subst hafter
      refine .next hm hn rfl (.call hf (.gather hk hf hrest hacc hitem ?_ subset_rfl) ?_ ?_ ?_) rfl
      · exact hapart.mono_left (shown_mono σ (under_mono hlater))
      · split_ifs
        · exact List.forall_mem_nil _
        · exact List.forall_mem_singleton.2 hitem
      · refine Set.disjoint_union_right.2 ⟨?_, hapart.mono_left (shown_mono σ hbelow)⟩
        exact shown_disjoint σ (disjoint_below_under (Nat.not_succ_le_self index))
      · refine (Set.union_subset ?_ (Set.union_subset_union_left _ ?_)).trans hwithin
        · exact (shown_mono σ hbelow).trans Set.subset_union_left
        · exact shown_mono σ (under_mono hlater)
  | weigh hσ hk hf hd hstore hitems =>
    subst hσ
    cases items with
    | nil =>
      obtain ⟨e, outer, hstack, rfl, hworking⟩ := hm.working hm.held.settles rfl
      exact hworking.live (hworking.advance hS)
    | cons item rest =>
      obtain ⟨hitem, hrest⟩ := List.forall_mem_cons.1 hitems
      refine .bind hm.held.settles (setStore_stays hm.held hstore) fun _ n _ hn => ?_
      refine .bind hn (newCont_stays hn.held _) fun after n' hafter hn' => ?_
      subst hafter
      exact .next hm hn' rfl (.inner hf (.weigh hk hf hd hstore hrest hacc hitem)
        (List.forall_mem_singleton.2 hitem) _) rfl

/-! ## Tasks -/

theorem Outcome.of_calls (hm : m.Fits S T σ) (h : x.Stays (Step.Calls σ (shown σ T)) m) :
    Outcome S T t m (x m) := by
  refine .of_stays hm hm.held.settles h ?_
  rintro _ ⟨f, args, rfl, hfits⟩
  exact ⟨_, rfl, hfits, rfl⟩

theorem resume_outcome (hS : Bare S) (hm : m.Fits S T σ) (hk : Continues σ (shown σ T) k)
    (hv : v.Held) : Outcome S T t m (applyValue k [v] m) := by
  have hk' := hk
  cases hk with
  | exit => exact .ends hm.tower.eq_base
  | lambda => exact .of_calls hm (enterClosure_continuation hk' hv hm.held)
  | gather | weigh => exact Loop.collect_outcome hS hm hk' hv
  | remember hk hwithin =>
    exact .resume hm (remember_settles hm.held _ _ hv) (hk.mono hwithin) hv
  | drawn hk hf hapart hwithin =>
    refine .bind hm.held.settles (newCont_stays hm.held _) fun after n hafter hn => ?_
    subst hafter
    refine .next hm hn rfl (.call hf (.scored hk hv ?_ subset_rfl) ?_ ?_ ?_) rfl
    · exact hapart.mono_left (shown_mono σ (Set.singleton_subset_iff.2 (mem_below_self _ _)))
    · exact List.forall_mem_singleton.2 hv
    · refine Set.disjoint_union_right.2 ⟨shown_disjoint σ ?_, ?_⟩
      · exact Set.disjoint_singleton_right.2 (not_mem_below_subaddress _ _ _)
      · exact hapart.mono_left (shown_mono σ (below_subaddress _ _))
    · refine (Set.union_subset ?_ (Set.union_subset_union_left _ ?_)).trans hwithin
      · exact (shown_mono σ (Set.subset_insert _ _)).trans Set.subset_union_left
      · exact shown_mono σ (Set.singleton_subset_iff.2 (Set.mem_insert _ _))
  | scored hk hv' hapart hwithin =>
    refine .lift (.stays rfl) fun x _ => ?_
    have hn : m.Settles { m with nextId := m.nextId + 1 } :=
      ⟨rfl, Nat.le_succ _, hm.held.store, hm.held.tables⟩
    exact factorAt_outcome hS hm hn rfl
      (.weighted hk hv' (Set.subset_union_right.trans hwithin)) _ x
  | weighted hk hv' hwithin => exact .resume hm hm.held.settles (hk.mono hwithin) hv'
  | leave =>
    obtain ⟨e, outer, hstack, rfl, hworking⟩ := hm.working hm.held.settles rfl
    exact hworking.live (hworking.leave hS hv)

theorem call_outcome (hS : Bare S) (hm : m.Fits S T σ) {f : Value} {vs : List Value} (hf : f.Held)
    (hk : Continues σ G k) (hvs : ValuesHeld vs) (hapart : Disjoint (shown σ (Below address)) G)
    (hwithin : shown σ (Below address) ∪ G ⊆ shown σ T) :
    Outcome S T t m (applyValue f (k :: .str address :: vs) m) := by
  cases hf with
  | closure hcode henv =>
    exact .of_calls hm (enterClosure_function hcode henv hk hvs hapart hwithin hm.held)
  | builtin b => exact Builtin.run_outcome hS hm hk hvs hapart hwithin b
  | cached hf => exact callCached_outcome hm hk hvs hapart hwithin _ hf
  | primitive p =>
    have hrun :=
      (held_inherited.likeness.run_inStep p (forall₂_itself.2 ⟨rfl, hvs⟩)).inPlace.stays hm.held
    refine .bind hm.held.settles hrun fun v n hv hn => ?_
    exact .resume hm hn (hk.mono (Set.subset_union_right.trans hwithin)) hv
  | _ => exact .throw hm.held.settles _

/-- A task that fits ends in one that fits. -/
theorem Task.perform_outcome (hS : Bare S) (hm : m.Fits S T σ) (ht : t.Fits σ (shown σ T))
    (hnew : ∀ e, t.entered? = some e → e.id < m.nextId) : Outcome S T t m (t.perform m) := by
  cases ht with
  | call hf hk hvs hapart hwithin => exact call_outcome hS hm hf hk hvs hapart hwithin
  | resume hk hv => exact resume_outcome hS hm hk hv
  | name he henv hκ ha haddress hk hapart hwithin =>
    exact .of_calls hm (enterClosure_name he henv hκ ha haddress hk hapart hwithin hm.held)
  | turn hl hacc => exact .next hm hm.held.settles rfl (.iterate hl hacc) rfl
  | iterate hl hacc => exact Loop.iterate_outcome hS hm hl hacc
  | @enter e thunk i hk hfrontier htally hstore hthunk habove =>
    have hfits : e.Fits σ :=
      { above := habove
        entries := by rw [hfrontier]; exact nofun
        tally := by rw [htally]; exact nofun
        store := hstore }
    have hnone : e.stores = [] := by rw [Engine.stores, hfrontier, List.map_nil]
    have hnext : ∀ j ∈ e.id :: σ, j < m.nextId := List.forall_mem_cons.2 ⟨hnew e rfl, hm.next⟩
    exact .goes rfl ⟨⟨hm.held.store, hm.held.tables⟩, .install hm.tower hfits hk, hnext⟩
      (.inner hthunk .leave (List.forall_mem_nil _) e.address) le_rfl (.opens rfl rfl rfl rfl hnone)

/-! ## Runs -/

/-- The task fits the state, in which the enumerations `σ` are installed. -/
structure Ready (S : List Coroutine) (T : Set Site) (σ : List Nat) (t : Task) (m : Machine) :
    Prop where
  machine : m.Fits S T σ
  task : t.Fits σ (shown σ T)
  new : ∀ e, t.entered? = some e → e.id < m.nextId

theorem Shift.new {t' : Task} (h : Shift t m t' n) :
    ∀ e, t'.entered? = some e → e.id < n.nextId := by
  intro e he
  cases h with
  | stays _ hnone | opens _ _ hnone | explores _ _ _ _ _ hnone => cases hnone.symm.trans he
  | calls _ hsome _ hlt =>
    cases hsome.symm.trans he
    exact hlt
  | closes _ _ heq =>
    subst heq
    cases he

namespace Ready

variable {e : Error}

theorem next (hS : Bare S) (h : Ready S T σ t m) {s : Step} {t' : Task}
    (hstep : t.perform m = .ok s n) (hs : s.task? = some t') :
    ∃ σ', Ready S T σ' t' n ∧ m.nextId ≤ n.nextId ∧ Shift t m t' n := by
  have houtcome := t.perform_outcome hS h.machine h.task h.new
  rw [hstep] at houtcome
  cases houtcome with
  | goes hs' hn ht' hle hshift =>
    cases hs'.symm.trans hs
    exact ⟨_, ⟨hn, ht', hshift.new⟩, hle, hshift⟩
  | ends => cases hs

theorem base_of_done (hS : Bare S) (h : Ready S T σ t m) (hstep : t.perform m = .ok (.done v) n) :
    n = m ∧ m.stack = S := by
  have houtcome := t.perform_outcome hS h.machine h.task h.new
  rw [hstep] at houtcome
  cases houtcome with
  | goes hs => cases hs
  | ends hm => exact ⟨rfl, hm⟩

theorem stack_of_done (hS : Bare S) (h : Ready S T σ t m) (hstep : t.perform m = .ok (.done v) n) :
    n.stack = S := by
  obtain ⟨rfl, hm⟩ := h.base_of_done hS hstep
  exact hm

theorem halt_of_error (hS : Bare S) (h : Ready S T σ t m) (hstep : t.perform m = .error e n) :
    Halt m n := by
  have houtcome := t.perform_outcome hS h.machine h.task h.new
  rw [hstep] at houtcome
  cases houtcome with
  | fails hn => exact hn

theorem suffix_of_error (hS : Bare S) (h : Ready S T σ t m) (hstep : t.perform m = .error e n) :
    S <:+ n.stack :=
  (h.halt_of_error hS hstep).suffix h.machine.tower hS

theorem base (hS : Bare S) (h : Ready S T σ t m) (hstack : m.stack = S) : σ = [] := by
  cases σ with
  | nil => rfl
  | cons i σ =>
    obtain ⟨e, outer, htop, _⟩ := h.machine.tower.top
    exact absurd (hstack ▸ htop ▸ List.mem_cons_self) (hS e)

end Ready

theorem Machine.Fits.of_base (hm : m.Held) (hstack : m.stack = S) : m.Fits S T [] :=
  ⟨hm, hstack ▸ .base, nofun⟩

end Steps

end Chance
