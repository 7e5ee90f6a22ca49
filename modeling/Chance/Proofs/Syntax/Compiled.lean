import Chance.Proofs.Syntax.Parsed
import Chance.Proofs.Syntax.Usages
import Chance.Proofs.Likeness.Values

/-!
# Proper syntax under compilation

Each pass makes proper trees of proper ones. The names that passes make up are identifiers, and
conversion to continuation-passing form keeps the target of an assignment a property of the store,
although it takes the target apart and puts it together again.

- `Compile.Gen.Yields`: what a computation that makes up names can give,
- `Compile.Usage.Gives`: usages that make proper code,
- `compileSource_isConverted`: what compiling a text gives.
-/

namespace Chance.Compile

/-! ## Generated names -/

variable {e k : Expr} {build : Build Expr}

/-- Whatever number comes next, the result has the property. -/
def Gen.Yields {α : Type} (P : α → Prop) (x : Gen α) : Prop :=
  ∀ n, P (x.run n).1

section Yields

variable {α β : Type} {P : α → Prop} {Q : β → Prop}

theorem Gen.Yields.pure {a : α} (h : P a) : Gen.Yields P (pure a) := fun _ => h

theorem Gen.Yields.bind {x : Gen α} {f : α → Gen β} (hx : Gen.Yields P x)
    (hf : ∀ a, P a → Gen.Yields Q (f a)) : Gen.Yields Q (x >>= f) :=
  fun n => hf _ (hx n) _

end Yields

theorem isNamePart_of_isDigit {c : Char} (h : c.isDigit) : isNamePart c := by
  simp [isNamePart, h]

theorem isName_generated {hint : String} (h : hint.toList.all isNamePart) (n : Nat) :
    isName (generated hint n) := by
  have htoList : (generated hint n).toList = '_' :: (hint.toList ++ (toString n).toList) := by
    simp [generated]
  have hdigits : ∀ c ∈ (toString n).toList, isNamePart c := by
    intro c hc
    refine isNamePart_of_isDigit (Nat.isDigit_of_mem_toDigits (b := 10) (n := n) ?_ ?_ ?_)
    · decide
    · decide
    · simpa using hc
  have hkeyword : Keyword.ofSpelling? (generated hint n) = none := by
    rw [Keyword.ofSpelling?, List.find?_eq_none]
    intro w _ hw
    have hw : w.spelling = generated hint n := by simpa using hw
    have hhead : w.spelling.toList.head? = some '_' := by rw [hw, htoList, List.head?_cons]
    cases w <;> revert hhead <;> decide
  have hstart : isNameStart '_' := by decide
  have hparts : (hint.toList ++ (toString n).toList).all isNamePart := by
    rw [List.all_append, h, List.all_eq_true.2 hdigits]
    rfl
  unfold isName
  rw [htoList]
  simp only [hstart, hparts, hkeyword, Option.isNone_none, Bool.and_self]

theorem fresh_yields (hint : String) (h : hint.toList.all isNamePart) :
    Gen.Yields (fun x => isName x) (fresh hint) :=
  fun n => isName_generated h n

theorem fragment_yields : Gen.Yields Expr.Proper fragment := fun _ => trivial

theorem lambda_proper {x : String} (hx : isName x) (he : e.Proper) :
    (Expr.lambda [x] e).Proper := by
  refine ⟨nofun, ?_, he, trivial⟩
  simpa using hx

theorem declare_proper {ds ds' : List (String × Expr)} (h : (Stmt.declare ds).Proper)
    (hkeys : ds'.map Prod.fst = ds.map Prod.fst) (hvalues : FieldsProper ds') :
    (Stmt.declare ds').Proper := by
  refine ⟨?_, ?_, hvalues⟩
  · rintro rfl
    exact h.1 (List.map_eq_nil_iff.1 hkeys.symm)
  · have hnames : ∀ x ∈ ds'.map Prod.fst, isName x := by
      rw [hkeys]
      simpa using h.2.1
    simpa using hnames

/-! ## One function -/

section Entry

mutual

theorem returning_proper : ∀ {s : Stmt}, s.Proper → s.returning.Proper
  | .block _, h => returnLast_proper h
  | .expr _, h => h
  | .ifElse _ _ _, h => ⟨h.1, returnLast_proper h.2.1, returnLast_proper h.2.2⟩
  | .empty, h => h
  | .declare _, h => h
  | .ret _, h => h

theorem returnLast_proper : ∀ {ss : List Stmt}, StmtsProper ss → StmtsProper (returnLast ss)
  | [], h => h
  | [_], h => ⟨returning_proper h.1, trivial⟩
  | _ :: _ :: _, h => ⟨h.1, returnLast_proper h.2⟩

end

theorem thunk_proper {p : Program} (h : StmtsProper p.body) : StmtsProper p.thunk.body :=
  ⟨⟨nofun, nofun, returnLast_proper h⟩, trivial⟩

end Entry

/-! ## Addresses -/

theorem extended_proper {a : String} (ha : isName a) (he : e.Proper) : (extended a e).Proper :=
  ⟨⟨ha, trivial⟩, he, trivial⟩

mutual

theorem addressExpr_yields {a : String} (ha : isName a) :
    ∀ {e : Expr}, e.Proper → Gen.Yields Expr.Proper (addressExpr a e)
  | .array _, h => (addressExprs_yields ha h).bind fun _ hes => .pure hes
  | .object _, h => (addressFields_yields ha h).bind fun _ hfs => .pure hfs.2
  | .unary _ e, h => (addressExpr_yields (e := e) ha h).bind fun _ he => .pure he
  | .binary _ _ _, h | .logic _ _ _, h | .member _ _, h =>
    (addressExpr_yields ha h.1).bind fun _ hl =>
      (addressExpr_yields ha h.2).bind fun _ hr => .pure ⟨hl, hr⟩
  | .cond _ _ _, h =>
    (addressExpr_yields ha h.1).bind fun _ ht =>
      (addressExpr_yields ha h.2.1).bind fun _ hc =>
        (addressExpr_yields ha h.2.2).bind fun _ he => .pure ⟨ht, hc, he⟩
  | .call f es, h => by
    refine (addressExpr_yields ha h.1).bind fun f' hf => ?_
    refine (addressExprs_yields ha h.2).bind fun es' hes => ?_
    split_ifs
    · exact .pure ⟨hf, hes⟩
    · exact fragment_yields.bind fun l hl => .pure ⟨hf, extended_proper ha hl, hes⟩
  | .func name params body, h => by
    refine (fresh_yields "address" (by decide)).bind fun inner hinner => ?_
    refine (addressStmts_yields hinner h.2.2).bind fun body' hbody => ?_
    exact .pure ⟨h.1, List.forall_mem_cons.2 ⟨hinner, h.2.1⟩, hbody⟩
  | .assign t v, h => by
    have htarget : Gen.Yields (fun t' => t'.IsStoreProperty ∧ t'.Proper) (addressExpr a t) :=
      addressExpr_yields_storeProperty ha h.1 h.2.1
    exact htarget.bind fun _ ht =>
      (addressExpr_yields ha h.2.2).bind fun _ hv => .pure ⟨ht.1, ht.2, hv⟩
  | .num _, h | .str _, h | .bool _, h | .null, h | .undefined, h | .var _, h => .pure h

theorem addressExpr_yields_storeProperty {a : String} (ha : isName a) :
    ∀ {e : Expr}, e.IsStoreProperty → e.Proper →
      Gen.Yields (fun t => t.IsStoreProperty ∧ t.Proper) (addressExpr a e)
  | .member (.var _) _, hstore, h =>
    (addressExpr_yields ha h.2).bind fun _ hp => .pure ⟨hstore, h.1, hp⟩

theorem addressExprs_yields {a : String} (ha : isName a) :
    ∀ {es : List Expr}, ExprsProper es → Gen.Yields ExprsProper (addressExprs a es)
  | [], h => .pure h
  | _ :: _, h =>
    (addressExpr_yields ha h.1).bind fun _ he =>
      (addressExprs_yields ha h.2).bind fun _ hes => .pure ⟨he, hes⟩

theorem addressFields_yields {a : String} (ha : isName a) :
    ∀ {fs : List (String × Expr)}, FieldsProper fs →
      Gen.Yields (fun gs => gs.map Prod.fst = fs.map Prod.fst ∧ FieldsProper gs)
        (addressFields a fs)
  | [], h => .pure ⟨rfl, h⟩
  | (k, _) :: _, h =>
    (addressExpr_yields ha h.1).bind fun _ he =>
      (addressFields_yields ha h.2).bind fun _ hfs =>
        .pure ⟨congrArg (k :: ·) hfs.1, he, hfs.2⟩

theorem addressStmt_yields {a : String} (ha : isName a) :
    ∀ {s : Stmt}, s.Proper → Gen.Yields Stmt.Proper (addressStmt a s)
  | .empty, h => .pure h
  | .expr _, h => (addressExpr_yields ha h).bind fun _ he => .pure he
  | .declare ds, h => by
    exact (addressFields_yields ha h.2.2).bind fun ds' hds =>
      .pure (declare_proper h hds.1 hds.2)
  | .ifElse _ _ _, h =>
    (addressExpr_yields ha h.1).bind fun _ ht =>
      (addressStmts_yields ha h.2.1).bind fun _ hc =>
        (addressStmts_yields ha h.2.2).bind fun _ he => .pure ⟨ht, hc, he⟩
  | .ret _, h => (addressExpr_yields ha h).bind fun _ he => .pure he
  | .block _, h => (addressStmts_yields ha h).bind fun _ hs => .pure hs

theorem addressStmts_yields {a : String} (ha : isName a) :
    ∀ {ss : List Stmt}, StmtsProper ss → Gen.Yields StmtsProper (addressStmts a ss)
  | [], h => .pure h
  | _ :: _, h =>
    (addressStmt_yields ha h.1).bind fun _ hs =>
      (addressStmts_yields ha h.2).bind fun _ hss => .pure ⟨hs, hss⟩

end

/-! ## Linear lists -/

mutual

theorem stmt_linearizeOnto_proper :
    ∀ {s : Stmt} {after : List Stmt}, s.Proper → StmtsProper after →
      StmtsProper (s.linearizeOnto after)
  | .block _, _, h, hafter => linearizeOnto_proper h hafter
  | .ifElse t c a, after, h, hafter => by
    simp only [Stmt.linearizeOnto]
    split_ifs
    · exact ⟨⟨h.1, linearizeOnto_proper h.2.1 hafter, linearizeOnto_proper h.2.2 hafter⟩, trivial⟩
    · exact ⟨h, hafter⟩
  | .ret _, _, h, _ => ⟨h, trivial⟩
  | .empty, _, h, hafter => ⟨h, hafter⟩
  | .expr _, _, h, hafter => ⟨h, hafter⟩
  | .declare _, _, h, hafter => ⟨h, hafter⟩

theorem linearizeOnto_proper :
    ∀ {ss after : List Stmt}, StmtsProper ss → StmtsProper after →
      StmtsProper (linearizeOnto ss after)
  | [], _, _, hafter => hafter
  | _ :: _, _, h, hafter => stmt_linearizeOnto_proper h.1 (linearizeOnto_proper h.2 hafter)

end

theorem flatten_isStoreProperty (h : e.IsStoreProperty) : e.flatten.IsStoreProperty := by
  cases e with
  | member o p =>
    cases o with
    | var x => exact h
    | _ => exact h.elim
  | _ => exact h.elim

theorem flattenFields_keys (fs : List (String × Expr)) :
    (flattenFields fs).map Prod.fst = fs.map Prod.fst := by
  induction fs with
  | nil => rfl
  | cons f fs ih => exact congrArg (f.1 :: ·) ih

mutual

theorem flatten_proper : ∀ {e : Expr}, e.Proper → e.flatten.Proper
  | .array _, h => flattenExprs_proper h
  | .object _, h => flattenFields_proper h
  | .unary _ e, h => flatten_proper (e := e) h
  | .binary _ _ _, h | .logic _ _ _, h | .member _ _, h =>
    ⟨flatten_proper h.1, flatten_proper h.2⟩
  | .cond _ _ _, h => ⟨flatten_proper h.1, flatten_proper h.2.1, flatten_proper h.2.2⟩
  | .call _ _, h => ⟨flatten_proper h.1, flattenExprs_proper h.2⟩
  | .func _ _ _, h =>
    ⟨h.1, h.2.1, linearizeOnto_proper (flattenStmts_proper h.2.2) trivial⟩
  | .assign _ _, h =>
    ⟨flatten_isStoreProperty h.1, flatten_proper h.2.1, flatten_proper h.2.2⟩
  | .num _, h | .str _, h | .bool _, h | .null, h | .undefined, h | .var _, h => h

theorem flattenExprs_proper : ∀ {es : List Expr}, ExprsProper es → ExprsProper (flattenExprs es)
  | [], h => h
  | _ :: _, h => ⟨flatten_proper h.1, flattenExprs_proper h.2⟩

theorem flattenFields_proper :
    ∀ {fs : List (String × Expr)}, FieldsProper fs → FieldsProper (flattenFields fs)
  | [], h => h
  | (_, _) :: _, h => ⟨flatten_proper h.1, flattenFields_proper h.2⟩

theorem stmt_flatten_proper : ∀ {s : Stmt}, s.Proper → s.flatten.Proper
  | .empty, h => h
  | .expr _, h => flatten_proper h
  | .declare ds, h => declare_proper h (flattenFields_keys ds) (flattenFields_proper h.2.2)
  | .ifElse _ _ _, h =>
    ⟨flatten_proper h.1, flattenStmts_proper h.2.1, flattenStmts_proper h.2.2⟩
  | .ret _, h => flatten_proper h
  | .block _, h => flattenStmts_proper h

theorem flattenStmts_proper : ∀ {ss : List Stmt}, StmtsProper ss → StmtsProper (flattenStmts ss)
  | [], h => h
  | _ :: _, h => ⟨stmt_flatten_proper h.1, flattenStmts_proper h.2⟩

end

/-! ## Usages -/

/-- All code that the usage makes is proper. -/
structure Usage.Gives (d : Usage) : Prop where
  keep : Gen.Yields Expr.Proper d.keep
  pass : ∀ k : Expr, k.Proper → Gen.Yields Expr.Proper (d.pass k)
  use : ∀ build : Build Expr, (∀ e, e.Proper → Gen.Yields Expr.Proper (build e)) →
    Gen.Yields Expr.Proper (d.use build)

theorem resume_proper {v : Expr} (hk : k.Proper) (hv : v.Proper) : (resume k v).Proper :=
  ⟨hk, hv, trivial⟩

theorem nameContinuation_yields (hk : k.Proper)
    (h : ∀ k, k.Proper → Gen.Yields Expr.Proper (build k)) :
    Gen.Yields Expr.Proper (nameContinuation k build) := by
  unfold nameContinuation
  split
  · exact h _ hk
  · refine (fresh_yields "k" (by decide)).bind fun x hx => ?_
    refine (h (.var x) hx).bind fun body hbody => .pure ?_
    exact ⟨lambda_proper hx hbody, hk, trivial⟩

theorem useResult_yields {pass : Build Expr}
    (hpass : ∀ k, k.Proper → Gen.Yields Expr.Proper (pass k))
    (hbuild : ∀ e, e.Proper → Gen.Yields Expr.Proper (build e)) :
    Gen.Yields Expr.Proper (useResult pass build) := by
  refine (fresh_yields "result" (by decide)).bind fun x hx => ?_
  refine (hbuild (.var x) hx).bind fun body hbody => ?_
  exact hpass _ (lambda_proper hx hbody)

theorem ignoring_yields {rest : Gen Expr} (h : Gen.Yields Expr.Proper rest) :
    Gen.Yields Expr.Proper (ignoring rest) := by
  refine (fresh_yields "dummy" (by decide)).bind fun x hx => ?_
  exact h.bind fun body hbody => .pure (lambda_proper hx hbody)

theorem following_yields {ss : List Stmt} (h : Gen.Yields Expr.Proper (sequence ss k))
    (hk : k.Proper) : Gen.Yields Expr.Proper (following ss k) := by
  unfold following
  split_ifs
  · exact .pure hk
  · exact ignoring_yields h

theorem part_proper : ∀ {es : List Expr}, ExprsProper es → ∀ i, (part es i).Proper
  | [], _, _ => trivial
  | _ :: _, h, 0 => h.1
  | _ :: _, h, i + 1 => part_proper h.2 i

theorem fieldsProper_zip : ∀ (keys : List String) {es : List Expr}, ExprsProper es →
    FieldsProper (keys.zip es)
  | [], _, _ => trivial
  | _ :: _, [], _ => trivial
  | _ :: keys, _ :: _, h => ⟨h.1, fieldsProper_zip keys h.2⟩

namespace Usage

variable {atomic : Bool} {keep : Gen Expr} {pass : Build Expr} {ds : List Usage}

theorem make_gives {use : Build Expr → Gen Expr} (hkeep : Gen.Yields Expr.Proper keep)
    (hpass : ∀ k : Expr, k.Proper → Gen.Yields Expr.Proper (pass k))
    (huse : ∀ build : Build Expr, (∀ e, e.Proper → Gen.Yields Expr.Proper (build e)) →
      Gen.Yields Expr.Proper (use build)) : (make atomic keep pass use).Gives where
  keep := hkeep
  pass := hpass
  use := by
    intro build hbuild
    cases atomic with
    | true => exact hkeep.bind hbuild
    | false => exact huse build hbuild

theorem leaf_gives {e : Expr} (h : e.Proper) : (leaf e).Gives where
  keep := .pure h
  pass := fun _ hk => .pure (resume_proper hk h)
  use := fun _ hbuild => hbuild e h

theorem named_gives (hkeep : Gen.Yields Expr.Proper keep)
    (hpass : ∀ k : Expr, k.Proper → Gen.Yields Expr.Proper (pass k)) :
    (make atomic keep pass (useResult pass)).Gives :=
  make_gives hkeep hpass fun _ hbuild => useResult_yields hpass hbuild

theorem keepAll_yields (h : ∀ d ∈ ds, d.Gives) : Gen.Yields ExprsProper (keepAll ds) := by
  induction ds with
  | nil => exact .pure trivial
  | cons d ds ih =>
    obtain ⟨hd, hds⟩ := List.forall_mem_cons.1 h
    exact hd.keep.bind fun e he => (ih hds).bind fun es hes => .pure ⟨he, hes⟩

theorem useAll_yields (h : ∀ d ∈ ds, d.Gives) {build : Build (List Expr)}
    (hbuild : ∀ es, ExprsProper es → Gen.Yields Expr.Proper (build es)) :
    Gen.Yields Expr.Proper (useAll ds build) := by
  induction ds generalizing build with
  | nil => exact hbuild [] trivial
  | cons d ds ih =>
    obtain ⟨hd, hds⟩ := List.forall_mem_cons.1 h
    exact hd.use _ fun e he => ih hds fun es hes => hbuild _ ⟨he, hes⟩

theorem formed_gives {named : Bool} {wrap : List Expr → Expr} (h : ∀ d ∈ ds, d.Gives)
    (hwrap : ∀ es, ExprsProper es → (wrap es).Proper) : (formed atomic named wrap ds).Gives := by
  have hkeep : Gen.Yields Expr.Proper (keepAll ds >>= fun es => pure (wrap es)) :=
    (keepAll_yields h).bind fun es hes => .pure (hwrap es hes)
  have hpass (k : Expr) (hk : k.Proper) : Gen.Yields Expr.Proper
      (useAll ds fun es => pure (resume k (wrap es))) :=
    useAll_yields h fun es hes => .pure (resume_proper hk (hwrap es hes))
  cases named with
  | true => exact named_gives hkeep hpass
  | false =>
    exact make_gives hkeep hpass fun _ hbuild =>
      useAll_yields h fun es hes => hbuild _ (hwrap es hes)

theorem cond_gives {t c a : Usage} (ht : t.Gives) (hc : c.Gives) (ha : a.Gives) :
    (cond atomic t c a).Gives := by
  refine named_gives ?_ ?_
  · exact ht.keep.bind fun t ht => hc.keep.bind fun c hc => ha.keep.bind fun a ha =>
      .pure ⟨ht, hc, ha⟩
  · intro k hk
    refine nameContinuation_yields hk fun k hk => ht.use _ fun t ht => ?_
    exact (hc.pass k hk).bind fun c hc => (ha.pass k hk).bind fun a ha => .pure ⟨ht, hc, ha⟩

theorem logic_gives {op : LogicOp} {l r : Usage} (hl : l.Gives) (hr : r.Gives) :
    (logic atomic op l r).Gives := by
  refine named_gives ?_ ?_
  · exact hl.keep.bind fun l hl => hr.keep.bind fun r hr => .pure ⟨hl, hr⟩
  · intro k hk
    refine nameContinuation_yields hk fun k hk => hl.use _ fun l hl => ?_
    refine (hr.pass k hk).bind fun long hlong => ?_
    have hshort := resume_proper hk hl
    cases op with
    | or => exact .pure ⟨hl, hshort, hlong⟩
    | and => exact .pure ⟨hl, hlong, hshort⟩

theorem call_gives {primitive : Bool} {f : Usage} (hf : f.Gives) (hds : ∀ d ∈ ds, d.Gives) :
    (call atomic primitive f ds).Gives := by
  refine named_gives ?_ ?_
  · exact hf.keep.bind fun f hf => (keepAll_yields hds).bind fun es hes => .pure ⟨hf, hes⟩
  · intro k hk
    refine hf.use _ fun f hf => useAll_yields hds fun es hes => .pure ?_
    cases primitive with
    | true => exact resume_proper hk ⟨hf, hes⟩
    | false => exact ⟨hf, hk, hes⟩

theorem func_gives {name : Option String} {params : List String} {body : Build Expr}
    (hname : ∀ x ∈ name, isName x) (hparams : ∀ x ∈ params, isName x)
    (hbody : ∀ k, k.Proper → Gen.Yields Expr.Proper (body k)) :
    (func name params body).Gives := by
  have hkeep : Gen.Yields Expr.Proper (function name params body) := by
    refine (fresh_yields "k" (by decide)).bind fun x hx => ?_
    refine (hbody (.var x) hx).bind fun e he => .pure ?_
    exact ⟨hname, List.forall_mem_cons.2 ⟨hx, hparams⟩, he, trivial⟩
  exact
    { keep := hkeep
      pass := fun _ hk => hkeep.bind fun _ he => .pure (resume_proper hk he)
      use := fun _ hbuild => hkeep.bind hbuild }

end Usage

mutual

theorem usage_gives : ∀ {e : Expr}, e.Proper → (usage e).Gives
  | .num _, h | .str _, h | .bool _, h | .null, h | .undefined, h | .var _, h => Usage.leaf_gives h
  | .array es, h => usage_array es ▸ Usage.formed_gives (usageAll_gives h) fun _ hes => hes
  | .object fs, h => usage_object fs ▸ Usage.formed_gives (usageFields_gives h) fun _ hes =>
      fieldsProper_zip (fs.map Prod.fst) hes
  | .unary op e, h => usage_unary e op ▸
      Usage.formed_gives (List.forall_mem_singleton.2 (usage_gives (e := e) h)) fun _ hes =>
        part_proper hes 0
  | .binary l r op, h => usage_binary l r op ▸
      Usage.formed_gives (Usage.forall_mem_two (usage_gives h.1) (usage_gives h.2)) fun _ hes =>
        ⟨part_proper hes 0, part_proper hes 1⟩
  | .member o p, h => usage_member o p ▸
      Usage.formed_gives (Usage.forall_mem_two (usage_gives h.1) (usage_gives h.2)) fun _ hes =>
        ⟨part_proper hes 0, part_proper hes 1⟩
  | .logic _ _ _, h => Usage.logic_gives (usage_gives h.1) (usage_gives h.2)
  | .cond _ _ _, h =>
    Usage.cond_gives (usage_gives h.1) (usage_gives h.2.1) (usage_gives h.2.2)
  | .call _ _, h => Usage.call_gives (usage_gives h.1) (usageAll_gives h.2)
  | .func _ _ _, h => Usage.func_gives h.1 h.2.1 fun _ hk => sequence_yields h.2.2 hk
  | .assign (.member (.var x) p) v, h => usage_storeAssign p v x ▸
      -- The target is put together again as a property of the store, whatever becomes of its key.
      Usage.formed_gives (Usage.forall_mem_two (usage_gives h.2.1.2) (usage_gives h.2.2))
        fun _ hes => ⟨h.1, ⟨h.2.1.1, part_proper hes 0⟩, part_proper hes 1⟩

theorem usageAll_gives :
    ∀ {es : List Expr}, ExprsProper es → ∀ d ∈ usageAll es, d.Gives
  | [], _ => nofun
  | _ :: _, h => List.forall_mem_cons.2 ⟨usage_gives h.1, usageAll_gives h.2⟩

theorem usageFields_gives :
    ∀ {fs : List (String × Expr)}, FieldsProper fs → ∀ d ∈ usageAll (fs.map Prod.snd), d.Gives
  | [], _ => nofun
  | (_, _) :: _, h => List.forall_mem_cons.2 ⟨usage_gives h.1, usageFields_gives h.2⟩

theorem bindAll_yields :
    ∀ {ds : List (String × Expr)} {tail : Gen Expr}, (∀ d ∈ ds, isName d.1) → FieldsProper ds →
      Gen.Yields Expr.Proper tail → Gen.Yields Expr.Proper (bindAll ds tail)
  | [], _, _, _, htail => htail
  | (x, e) :: ds, tail, hnames, h, htail => by
    obtain ⟨hx, hnames⟩ := List.forall_mem_cons.1 hnames
    have hrest := bindAll_yields hnames h.2 htail
    cases e with
    | func name params body =>
      cases name with
      | none =>
        refine hrest.bind fun rest hrest => ?_
        have hself : ∀ y ∈ some x, isName y := by
          rintro _ ⟨⟩
          exact hx
        have hfunc := Usage.func_gives hself h.1.2.1 fun _ hk => sequence_yields h.1.2.2 hk
        exact hfunc.pass _ (lambda_proper hx hrest)
      | some f =>
        exact hrest.bind fun rest hrest => (usage_gives h.1).pass _ (lambda_proper hx hrest)
    | _ => exact hrest.bind fun rest hrest => (usage_gives h.1).pass _ (lambda_proper hx hrest)

theorem sequence_yields :
    ∀ {ss : List Stmt} {k : Expr}, StmtsProper ss → k.Proper →
      Gen.Yields Expr.Proper (sequence ss k)
  | [], _, _, hk => .pure (resume_proper hk trivial)
  | .empty :: rest, k, h, hk => by
    have hrest : Gen.Yields Expr.Proper (sequence rest k) := sequence_yields h.2 hk
    exact hrest
  | .ret _ :: _, k, h, hk => (usage_gives h.1).pass k hk
  | .declare _ :: _, _, h, hk => bindAll_yields h.1.2.1 h.1.2.2 (sequence_yields h.2 hk)
  | .expr e :: ss, k, h, hk => sequence_expr e ss k ▸
      (following_yields (sequence_yields h.2 hk) hk).bind fun k hk => (usage_gives h.1).pass k hk
  | .block b :: ss, k, h, hk => sequence_block b ss k ▸
      (following_yields (sequence_yields h.2 hk) hk).bind fun _ hk => sequence_yields h.1 hk
  | .ifElse t c a :: ss, k, h, hk => by
    rw [sequence_choice]
    refine (following_yields (sequence_yields h.2 hk) hk).bind fun k hk => ?_
    refine nameContinuation_yields hk fun k hk => (usage_gives h.1.1).use _ fun t ht => ?_
    exact (sequence_yields h.1.2.1 hk).bind fun c hc =>
      (sequence_yields h.1.2.2 hk).bind fun a ha => .pure ⟨ht, hc, ha⟩

end

end Chance.Compile

namespace Chance

/-! ## Programs -/

variable {p q : Program}

/-- A compiled program with the given code. -/
def Program.ofCode (e : Expr) : Program :=
  ⟨[.expr (.func none [Compile.generated "k" 0, Compile.generated "address" 0] [.expr e])]⟩

/-- The code that the passes make of a program. -/
def Program.code (p : Program) : Expr :=
  let addressed := (Compile.addressStmts (Compile.generated "address" 0) (returnLast p.body)).run 1
  (Compile.sequence (linearize (flattenStmts addressed.1)) (.var (Compile.generated "k" 0))
    |>.run 1).1

theorem Program.compile_eq (p : Program) :
    p.compile = Compile.checkTail p.code >>= fun _ => .ok (Program.ofCode p.code) := by
  change ((Compile.checkTail p.code >>= fun _ => _) >>= _) = _
  cases Compile.checkTail p.code <;> rfl

theorem Program.mapFunction_ok {stage : Stage}
    {f : Option String → List String → List Stmt → Except Error Expr}
    (h : p.mapFunction stage f = .ok q) :
    ∃ name params body e, p.body = [.expr (.func name params body)] ∧
      f name params body = .ok e ∧ q = ⟨[.expr e]⟩ := by
  unfold Program.mapFunction at h
  split at h
  · rename_i name params body hbody
    obtain ⟨e, he, hq⟩ := exists_ok_of_bind h
    cases hq
    exact ⟨name, params, body, e, hbody, he, rfl⟩
  · cases h

theorem Program.addressed_proper (h : p.addressed = .ok q) (hp : StmtsProper p.body) :
    StmtsProper q.body := by
  obtain ⟨name, params, body, e, hbody, he, rfl⟩ := Program.mapFunction_ok h
  cases he
  rw [hbody] at hp
  obtain ⟨⟨hname, hparams, hproper⟩, _⟩ := hp
  have hfunc : Compile.Gen.Yields Expr.Proper (do
      let a ← Compile.fresh "address"
      let body' ← Compile.addressStmts a body
      return .func name (a :: params) body') := by
    refine (Compile.fresh_yields "address" (by decide)).bind fun a ha => ?_
    refine (Compile.addressStmts_yields ha hproper).bind fun body' hbody' => .pure ?_
    exact ⟨hname, List.forall_mem_cons.2 ⟨ha, hparams⟩, hbody'⟩
  exact ⟨hfunc 0, trivial⟩

theorem Program.converted_proper (h : p.converted = .ok q) (hp : StmtsProper p.body) :
    StmtsProper q.body := by
  obtain ⟨name, params, body, e, hbody, he, rfl⟩ := Program.mapFunction_ok h
  cases he
  rw [hbody] at hp
  exact ⟨(Compile.usage_gives (Compile.flatten_proper hp.1)).keep 0, trivial⟩

/-- A program that is one proper function in continuation-passing form. -/
def Program.IsConverted (p : Program) : Prop :=
  ∃ name params body, p.body = [.expr (.func name params body)] ∧
    Compile.checkPlain (.func name params body) = .ok () ∧ (Expr.func name params body).Proper

theorem Program.compile_isConverted (h : p.compile = .ok q) (hp : StmtsProper p.body) :
    q.IsConverted := by
  obtain ⟨addressed, ha, h⟩ := exists_ok_of_bind h
  obtain ⟨converted, hc, h⟩ := exists_ok_of_bind h
  obtain ⟨name, params, body, e, hbody, he, rfl⟩ := Program.mapFunction_ok h
  obtain ⟨_, hcheck, he⟩ := exists_ok_of_bind he
  cases he
  have hproper : StmtsProper converted.body :=
    Program.converted_proper hc (Program.addressed_proper ha (Compile.thunk_proper hp))
  rw [hbody] at hproper
  exact ⟨name, params, body, rfl, hcheck, hproper.1⟩

theorem Compile.preludeBody_proper {body : List Stmt} (h : Compile.preludeBody = .ok body) :
    StmtsProper body := by
  unfold Compile.preludeBody at h
  cases hp : Program.parse ("\n".intercalate preludeFunctions) with
  | error e => rw [hp] at h; cases h
  | ok p =>
    rw [hp] at h
    cases h
    exact Program.parse_proper hp

/-- What compiling a text gives is one proper function in continuation-passing form. -/
theorem compileSource_isConverted {source : String} {withPrelude : Bool}
    (h : compileSource source withPrelude = .ok p) : p.IsConverted := by
  obtain ⟨user, hu, h⟩ := exists_ok_of_bind h
  have huser := Program.parse_proper hu
  cases withPrelude with
  | false => exact Program.compile_isConverted h huser
  | true =>
    obtain ⟨before, hb, h⟩ := exists_ok_of_bind h
    exact Program.compile_isConverted h
      (stmtsProper_append.2 ⟨Compile.preludeBody_proper hb, huser⟩)

end Chance
