import Mathlib.Data.List.Forall2
import Mathlib.Data.List.Induction
import Chance.Proofs.Printing.Taking
import Chance.Proofs.Reading.Lexemes

/-!
# Where parsing fails

A parser looks at no token beyond the furthest place at which it reports trouble, because each token
that it takes is followed by an attempt to read more, and an attempt that fails is reported where it
was made. So a failure depends only on the tokens up to the one it is reported at.

- `Parser.Follows`: one parser does with some tokens what another does with others that are the same
  up to a given index, as long as the first reports no trouble beyond it,
- `Grammar.rules_follow`: so do the grammar rules at any two depths that suffice for the tokens,
- `Text.positionAt_append`: the position of what stands after a given text,
- `failures_are_local`: other tokens after the place of a failure lead to the same failure, and the
  position that is reported is that of the token there.
-/

namespace Chance

/-- The cursors stand at the same place, before the same tokens up to the one with index `i`. -/
structure Cursor.Agrees (i : Nat) (c c' : Cursor) : Prop where
  index : c'.index = c.index
  rest : c'.rest.take (i + 1 - c.index) = c.rest.take (i + 1 - c.index)

namespace Cursor.Agrees

variable {i : Nat} {c c' : Cursor} {t : Token} {rest : List Token}

theorem head (h : c.Agrees i c') (hi : c.index ≤ i) : c'.rest.head? = c.rest.head? := by
  have hhead := congrArg List.head? h.rest
  rwa [List.head?_take, List.head?_take, if_neg (by omega), if_neg (by omega)] at hhead

theorem cons (h : c.Agrees i c') (hi : c.index ≤ i) (hc : c.rest = t :: rest) :
    ∃ rest', c'.rest = t :: rest' ∧ Agrees i ⟨c.index + 1, rest⟩ ⟨c.index + 1, rest'⟩ := by
  have hrest := h.rest
  obtain ⟨m, hm⟩ : ∃ m, i + 1 - c.index = m + 1 := ⟨i - c.index, by omega⟩
  rw [hc, hm, List.take_succ_cons] at hrest
  cases hc' : c'.rest with
  | nil =>
    rw [hc'] at hrest
    cases hrest
  | cons u rest' =>
    rw [hc', List.take_succ_cons] at hrest
    obtain ⟨rfl, htake⟩ := List.cons.inj hrest
    refine ⟨rest', rfl, rfl, ?_⟩
    have hm' : i + 1 - (c.index + 1) = m := by omega
    rw [hm', htake]

end Cursor.Agrees

theorem Trouble.index_join (a b : Trouble) : (a.join b).index = max a.index b.index := by
  unfold join
  split_ifs with hlt hgt
  · exact (Nat.max_eq_right hlt.le).symm
  · exact (Nat.max_eq_left hgt.le).symm
  · have heq : a.index = b.index := by omega
    rw [heq, Nat.max_self]

namespace Parser

variable {α β : Type} {i n n' k j : Nat} {p p' q q' : Parser α} {f g : α → Parser β} {c : Cursor}

/-- Before fewer than `n` tokens, `p` takes at least `k` of them where it succeeds, and where it
fails it reports trouble not before the place where it stands. Before fewer than `n'` tokens that
are the same up to the one with index `i`, `q` does what `p` does, unless `p` goes beyond that
token. -/
structure Follows (i n n' k : Nat) (p q : Parser α) : Prop where
  advances : ∀ {c d : Cursor} {a : α}, c.rest.length < n → (p c).result = some (a, d) →
    c.index + k ≤ d.index ∧ d.rest.length + k ≤ c.rest.length
  reports : ∀ {c : Cursor}, c.rest.length < n → (p c).result = none →
    c.index ≤ (p c).trouble.index
  fails : ∀ {c c' : Cursor}, c.Agrees i c' → c.rest.length < n → c'.rest.length < n' →
    (p c).trouble.index ≤ i → (p c).result = none →
    (q c').trouble = (p c).trouble ∧ (q c').result = none
  succeeds : ∀ {c c' d : Cursor} {a : α}, c.Agrees i c' → c.rest.length < n →
    c'.rest.length < n' → (p c).trouble.index ≤ i → (p c).result = some (a, d) → d.index ≤ i + 1 →
    (q c').trouble = (p c).trouble ∧ ∃ d', (q c').result = some (a, d') ∧ d.Agrees i d' ∧
      d'.rest.length + k ≤ c'.rest.length

/-! ## Combinators -/

theorem follows_succeed (a : α) : Follows i n n' 0 (succeed a) (succeed a) where
  advances := by
    rintro c _ _ - ⟨⟩
    exact ⟨Nat.le_refl _, Nat.le_refl _⟩
  reports := nofun
  fails := nofun
  succeeds := by
    rintro c c' _ _ hagrees - - - ⟨⟩ -
    exact ⟨rfl, c', rfl, hagrees, Nat.le_refl _⟩

theorem follows_nothing : Follows i 0 n' k p q where
  advances hc := absurd hc (Nat.not_lt_zero _)
  reports hc := absurd hc (Nat.not_lt_zero _)
  fails _ hc := absurd hc (Nat.not_lt_zero _)
  succeeds _ hc := absurd hc (Nat.not_lt_zero _)

theorem follows_pure (a : α) : Follows i n n' 0 (pure a : Parser α) (pure a) :=
  follows_succeed a

theorem follows_reject (e : Expectation) :
    Follows i n n' k (reject e : Parser α) (reject e) where
  advances := nofun
  reports := fun _ _ => Nat.le_refl _
  fails := by
    intro c c' hagrees _ _ _ _
    refine ⟨?_, rfl⟩
    simp only [reject, hagrees.index]
  succeeds := nofun

theorem token_cases (e : Expectation) (accept : Token → Option α) (c : Cursor) :
    (∃ t rest a, c.rest = t :: rest ∧ accept t = some a ∧
      token e accept c = ⟨some (a, ⟨c.index + 1, rest⟩), .none⟩) ∨
    c.rest.head?.bind accept = none ∧ token e accept c = ⟨none, ⟨c.index, [e]⟩⟩ := by
  cases hrest : c.rest with
  | nil => exact .inr ⟨rfl, by simp only [token, hrest]⟩
  | cons t rest =>
    cases ha : accept t with
    | none => exact .inr ⟨ha, by simp only [token, hrest, ha]⟩
    | some a => exact .inl ⟨t, rest, a, rfl, ha, by simp only [token, hrest, ha]⟩

theorem follows_token (e : Expectation) (accept : Token → Option α) :
    Follows i n n' 1 (token e accept) (token e accept) where
  advances := by
    intro c d a _ hr
    rcases token_cases e accept c with ⟨t, rest, b, hrest, -, heq⟩ | ⟨-, heq⟩
    · rw [heq] at hr
      cases hr
      rw [hrest]
      exact ⟨Nat.le_refl _, Nat.le_refl _⟩
    · rw [heq] at hr
      cases hr
  reports := by
    intro c _ hr
    rcases token_cases e accept c with ⟨t, rest, b, -, -, heq⟩ | ⟨-, heq⟩
    · rw [heq] at hr
      cases hr
    · rw [heq]
  fails := by
    intro c c' hagrees _ _ hi hr
    rcases token_cases e accept c with ⟨t, rest, b, -, -, heq⟩ | ⟨hnone, heq⟩
    · rw [heq] at hr
      cases hr
    · rw [heq] at hi ⊢
      -- The token that is refused is among those that agree.
      rw [← hagrees.head hi] at hnone
      rcases token_cases e accept c' with ⟨t, rest, b, hrest, hb, -⟩ | ⟨-, heq'⟩
      · rw [hrest, List.head?_cons, Option.bind_some, hb] at hnone
        cases hnone
      · rw [heq', hagrees.index]
        exact ⟨rfl, rfl⟩
  succeeds := by
    intro c c' d a hagrees _ _ _ hr hd
    rcases token_cases e accept c with ⟨t, rest, b, hrest, hb, heq⟩ | ⟨-, heq⟩
    · rw [heq] at hr ⊢
      cases hr
      obtain ⟨rest', hrest', hnext⟩ := hagrees.cons (Nat.le_of_succ_le_succ hd) hrest
      have heq' : token e accept c' = ⟨some (a, ⟨c.index + 1, rest'⟩), .none⟩ := by
        simp only [token, hrest', hb, hagrees.index]
      rw [heq', hrest']
      exact ⟨rfl, _, rfl, hnext, Nat.le_refl _⟩
    · rw [heq] at hr
      cases hr

theorem bind_of_none (h : (p c).result = none) : (p >>= f) c = ⟨none, (p c).trouble⟩ := by
  change Parser.bind p f c = _
  simp only [Parser.bind, h]

theorem bind_of_some {d : Cursor} {a : α} (h : (p c).result = some (a, d)) :
    (p >>= f) c = ⟨(f a d).result, (p c).trouble.join (f a d).trouble⟩ := by
  change Parser.bind p f c = _
  simp only [Parser.bind, h]

theorem orElse_of_none (h : (p c).result = none) :
    p.orElse p' c = ⟨(p' c).result, (p c).trouble.join (p' c).trouble⟩ := by
  simp only [Parser.orElse, h]

theorem orElse_of_some {x : α × Cursor} (h : (p c).result = some x) :
    p.orElse p' c = ⟨some x, (p c).trouble⟩ := by
  simp only [Parser.orElse, h]

namespace Follows

variable {sep sep' : Parser Unit} {fuel fuel' : Nat}

theorem anti {m m' : Nat} (h : Follows i n n' k p q) (hm : m ≤ n) (hm' : m' ≤ n') :
    Follows i m m' k p q where
  advances hc := h.advances (hc.trans_le hm)
  reports hc := h.reports (hc.trans_le hm)
  fails hagrees hc hc' := h.fails hagrees (hc.trans_le hm) (hc'.trans_le hm')
  succeeds hagrees hc hc' := h.succeeds hagrees (hc.trans_le hm) (hc'.trans_le hm')

theorem of_zero (h : Follows i n n' k p q) : Follows i n 0 k p q' where
  advances := h.advances
  reports := h.reports
  fails _ _ hc' := absurd hc' (Nat.not_lt_zero _)
  succeeds _ _ hc' := absurd hc' (Nat.not_lt_zero _)

theorem seq (hp : Follows i n n' k p q) (hf : ∀ a, Follows i (n - k) (n' - k) j (f a) (g a)) :
    Follows i n n' k (p >>= f) (q >>= g) where
  advances := by
    intro c e b hc hr
    cases hpc : (p c).result with
    | none =>
      rw [bind_of_none hpc] at hr
      cases hr
    | some x =>
      obtain ⟨a, d⟩ := x
      rw [bind_of_some hpc] at hr
      obtain ⟨hindex, hlength⟩ := hp.advances hc hpc
      obtain ⟨hindex', hlength'⟩ := (hf a).advances (by omega) hr
      omega
  reports := by
    intro c hc hr
    cases hpc : (p c).result with
    | none =>
      rw [bind_of_none hpc]
      exact hp.reports hc hpc
    | some x =>
      obtain ⟨a, d⟩ := x
      rw [bind_of_some hpc] at hr ⊢
      obtain ⟨hindex, hlength⟩ := hp.advances hc hpc
      have hsecond := (hf a).reports (by omega) hr
      rw [Trouble.index_join]
      omega
  fails := by
    intro c c' hagrees hc hc' hi hr
    cases hpc : (p c).result with
    | none =>
      rw [bind_of_none hpc] at hi ⊢
      obtain ⟨htrouble, hnone⟩ := hp.fails hagrees hc hc' hi hpc
      rw [bind_of_none hnone]
      exact ⟨htrouble, rfl⟩
    | some x =>
      obtain ⟨a, d⟩ := x
      rw [bind_of_some hpc] at hr hi ⊢
      rw [Trouble.index_join] at hi
      obtain ⟨hindex, hlength⟩ := hp.advances hc hpc
      -- The second parser reports its failure not before the place where the first one ended.
      have hsecond := (hf a).reports (by omega) hr
      obtain ⟨htrouble, d', hqc, hd, hlength'⟩ :=
        hp.succeeds hagrees hc hc' (by omega) hpc (by omega)
      obtain ⟨htrouble', hnone⟩ := (hf a).fails hd (by omega) (by omega) (by omega) hr
      rw [bind_of_some hqc, htrouble, htrouble', hnone]
      exact ⟨rfl, rfl⟩
  succeeds := by
    intro c c' e b hagrees hc hc' hi hr he
    cases hpc : (p c).result with
    | none =>
      rw [bind_of_none hpc] at hr
      cases hr
    | some x =>
      obtain ⟨a, d⟩ := x
      rw [bind_of_some hpc] at hr hi ⊢
      rw [Trouble.index_join] at hi
      obtain ⟨hindex, hlength⟩ := hp.advances hc hpc
      obtain ⟨hindex', -⟩ := (hf a).advances (by omega) hr
      obtain ⟨htrouble, d', hqc, hd, hlength'⟩ :=
        hp.succeeds hagrees hc hc' (by omega) hpc (by omega)
      obtain ⟨htrouble', e', hge, he', hlength''⟩ :=
        (hf a).succeeds hd (by omega) (by omega) (by omega) hr he
      rw [bind_of_some hqc, htrouble, htrouble']
      exact ⟨rfl, e', hge, he', by omega⟩

theorem andThen (hp : Follows i n n' k p q) (hf : ∀ a, Follows i n n' j (f a) (g a)) :
    Follows i n n' k (p >>= f) (q >>= g) :=
  hp.seq fun a => (hf a).anti (Nat.sub_le _ _) (Nat.sub_le _ _)

theorem orElse (hp : Follows i n n' k p q) (hp' : Follows i n n' j p' q') :
    Follows i n n' (min k j) (p.orElse p') (q.orElse q') where
  advances := by
    intro c d a hc hr
    cases hpc : (p c).result with
    | some x =>
      rw [orElse_of_some hpc] at hr
      cases hr
      obtain ⟨hindex, hlength⟩ := hp.advances hc hpc
      omega
    | none =>
      rw [orElse_of_none hpc] at hr
      obtain ⟨hindex, hlength⟩ := hp'.advances hc hr
      omega
  reports := by
    intro c hc hr
    cases hpc : (p c).result with
    | some x =>
      rw [orElse_of_some hpc] at hr
      cases hr
    | none =>
      rw [orElse_of_none hpc, Trouble.index_join]
      exact (hp.reports hc hpc).trans (Nat.le_max_left _ _)
  fails := by
    intro c c' hagrees hc hc' hi hr
    cases hpc : (p c).result with
    | some x =>
      rw [orElse_of_some hpc] at hr
      cases hr
    | none =>
      rw [orElse_of_none hpc] at hi hr ⊢
      -- The trouble of both attempts lies before the tokens that differ.
      rw [Trouble.index_join] at hi
      obtain ⟨htrouble, hnone⟩ := hp.fails hagrees hc hc' (by omega) hpc
      obtain ⟨htrouble', hnone'⟩ := hp'.fails hagrees hc hc' (by omega) hr
      rw [orElse_of_none hnone, htrouble, htrouble', hnone']
      exact ⟨rfl, rfl⟩
  succeeds := by
    intro c c' d a hagrees hc hc' hi hr hd
    cases hpc : (p c).result with
    | some x =>
      rw [orElse_of_some hpc] at hr hi ⊢
      cases hr
      obtain ⟨htrouble, d', hqc, hagrees', hlength⟩ := hp.succeeds hagrees hc hc' hi hpc hd
      rw [orElse_of_some hqc]
      exact ⟨htrouble, d', rfl, hagrees', by omega⟩
    | none =>
      rw [orElse_of_none hpc] at hi hr ⊢
      rw [Trouble.index_join] at hi
      obtain ⟨htrouble, hnone⟩ := hp.fails hagrees hc hc' (by omega) hpc
      obtain ⟨htrouble', d', hqc, hagrees', hlength⟩ :=
        hp'.succeeds hagrees hc hc' (by omega) hr hd
      rw [orElse_of_none hnone, htrouble, htrouble']
      exact ⟨rfl, d', hqc, hagrees', by omega⟩

theorem optional (hp : Follows i n n' k p q) : Follows i n n' 0 (optional p) (optional q) := by
  have hor := (hp.seq (j := 0) fun a => follows_succeed (some a)).orElse (follows_succeed none)
  rwa [Nat.min_zero] at hor

theorem many (hp : Follows i n n' 1 p q) {fuel fuel' : Nat} (hfuel : n ≤ fuel)
    (hfuel' : n' ≤ fuel') : Follows i n n' 0 (many p fuel) (many q fuel') := by
  induction fuel generalizing n n' fuel' with
  | zero =>
    cases Nat.le_zero.1 hfuel
    exact follows_nothing
  | succ fuel ih =>
    have hround (fuel' : Nat) (hfuel' : n' ≤ fuel' + 1) :
        Follows i n n' 0 (Parser.many p (fuel + 1)) (Parser.many q (fuel' + 1)) := by
      have hmore : Follows i (n - 1) (n' - 1) 0 (Parser.many p fuel) (Parser.many q fuel') :=
        ih (hp.anti (Nat.sub_le _ _) (Nat.sub_le _ _)) (by omega) (by omega)
      have hor := (hp.seq fun a => hmore.seq fun as => follows_succeed (a :: as)).orElse
        (follows_succeed [])
      rwa [Nat.min_zero] at hor
    cases fuel' with
    | zero =>
      cases Nat.le_zero.1 hfuel'
      exact (hround 0 (Nat.zero_le _)).of_zero
    | succ fuel' => exact hround fuel' hfuel'

theorem sepBy1 (hp : Follows i n n' 1 p q) (hsep : Follows i n n' 1 sep sep')
    (hfuel : n ≤ fuel + 1) (hfuel' : n' ≤ fuel' + 1) :
    Follows i n n' 1 (sepBy1 p sep fuel) (sepBy1 q sep' fuel') := by
  have hlater := (hsep.seq fun _ => hp.anti (Nat.sub_le _ _) (Nat.sub_le _ _)).anti
    (Nat.sub_le n 1) (Nat.sub_le n' 1)
  exact hp.seq fun a => (hlater.many (by omega) (by omega)).seq fun as => follows_succeed (a :: as)

theorem sepBy (hp : Follows i n n' 1 p q) (hsep : Follows i n n' 1 sep sep')
    (hfuel : n ≤ fuel + 1) (hfuel' : n' ≤ fuel' + 1) :
    Follows i n n' 0 (sepBy p sep fuel) (sepBy q sep' fuel') := by
  have hor := (hp.sepBy1 hsep hfuel hfuel').orElse (follows_succeed [])
  rwa [Nat.min_zero] at hor

/-- Reading all tokens fails in the same way. -/
theorem whole {t : Trouble} {tokens tokens' : List Token} (h : Follows t.index n n' k p q)
    (hn : tokens.length < n) (hn' : tokens'.length < n')
    (htake : tokens'.take (t.index + 1) = tokens.take (t.index + 1))
    (hfail : p.whole tokens = .error t) : q.whole tokens' = .error t := by
  have hagrees : Cursor.Agrees t.index ⟨0, tokens⟩ ⟨0, tokens'⟩ := ⟨rfl, htake⟩
  cases hresult : (p ⟨0, tokens⟩).result with
  | none =>
    simp only [Parser.whole, hresult] at hfail ⊢
    have ht := Except.error.inj hfail
    obtain ⟨htrouble, hnone⟩ := h.fails hagrees hn hn' (by rw [ht]) hresult
    simp only [hnone, htrouble, ht]
  | some x =>
    obtain ⟨a, c, rest⟩ := x
    cases rest with
    | nil =>
      simp only [Parser.whole, hresult] at hfail
      cases hfail
    | cons u rest =>
      simp only [Parser.whole, hresult] at hfail
      have ht := Except.error.inj hfail
      have hindex : max (p ⟨0, tokens⟩).trouble.index c = t.index := by
        rw [← ht, Trouble.index_join]
      obtain ⟨htrouble, ⟨c', rest'⟩, hresult', hagrees', -⟩ :=
        h.succeeds hagrees hn hn' (by omega) hresult (show c ≤ _ by omega)
      -- The token that was left over is there again.
      obtain ⟨rest'', rfl, -⟩ := hagrees'.cons (show c ≤ _ by omega) rfl
      obtain rfl : c' = c := hagrees'.index
      simp only [Parser.whole, hresult', htrouble, ht]

end Follows

theorem follows_choice {ps qs : List (Parser α)} (h : List.Forall₂ (Follows i n n' k) ps qs)
    (hps : ps ≠ []) : Follows i n n' k (choice ps) (choice qs) := by
  induction h with
  | nil => exact absurd rfl hps
  | @cons p q ps qs hp hmore ih =>
    cases hmore with
    | nil => exact hp
    | cons hp' hmore =>
      have hor := hp.orElse (ih (List.cons_ne_nil _ _))
      rwa [Nat.min_self] at hor

theorem follows_word (w : Keyword) : Follows i n n' 1 (word w) (word w) :=
  follows_token _ _

theorem follows_mark (m : Mark) : Follows i n n' 1 (mark m) (mark m) :=
  follows_token _ _

theorem follows_name (role : NameRole) : Follows i n n' 1 (name role) (name role) :=
  follows_token _ _

end Parser

/-! ## Rules -/

namespace Grammar

open Chance.Parser

/-- Rules of which the second ones follow the first ones. -/
structure Rules.Follow (i n n' : Nat) (r r' : Rules) : Prop where
  stmt : Follows i n n' 1 r.stmt r'.stmt
  expr : Follows i n n' 1 r.expr r'.expr
  unary : Follows i n n' 1 r.unary r'.unary
  bound : n ≤ r.bound
  bound' : n' ≤ r'.bound

namespace Rules.Follow

variable {i n n' : Nat} {r r' : Rules}

theorem inner (h : Rules.Follow i n n' r r') : Rules.Follow i (n - 1) (n' - 1) r r' where
  stmt := h.stmt.anti (Nat.sub_le _ _) (Nat.sub_le _ _)
  expr := h.expr.anti (Nat.sub_le _ _) (Nat.sub_le _ _)
  unary := h.unary.anti (Nat.sub_le _ _) (Nat.sub_le _ _)
  bound := (Nat.sub_le _ _).trans h.bound
  bound' := (Nat.sub_le _ _).trans h.bound'

theorem sepBy_comma {α : Type} {p q : Parser α} (h : Rules.Follow i n n' r r')
    (hp : Follows i n n' 1 p q) :
    Follows i n n' 0 (sepBy p comma r.bound) (sepBy q comma r'.bound) :=
  hp.sepBy (follows_mark _) (Nat.le_succ_of_le h.bound) (Nat.le_succ_of_le h.bound')

-- Each rule takes a token first, so what it refers to has one token less before it.
variable (h : Rules.Follow i (n - 1) (n' - 1) r r')
include h

theorem block : Follows i n n' 1 r.block r'.block :=
  (follows_mark _).seq fun _ => (h.stmt.many h.bound h.bound').andThen fun _ =>
    (follows_mark _).andThen fun _ => follows_pure _

theorem functionRest : Follows i n n' 1 r.functionRest r'.functionRest :=
  (follows_mark _).seq fun _ => (h.sepBy_comma (follows_name _)).andThen fun _ =>
    (follows_mark _).andThen fun _ => h.inner.block.andThen fun _ => follows_pure _

theorem functionLiteral : Follows i n n' 1 r.functionLiteral r'.functionLiteral :=
  (follows_word _).seq fun _ => (follows_name _).optional.andThen fun _ =>
    h.inner.functionRest.andThen fun _ => follows_pure _

theorem parenthesized : Follows i n n' 1 r.parenthesized r'.parenthesized :=
  (follows_mark _).seq fun _ => h.expr.andThen fun _ => (follows_mark _).andThen fun _ =>
    follows_pure _

theorem arrayLiteral : Follows i n n' 1 r.arrayLiteral r'.arrayLiteral :=
  (follows_mark _).seq fun _ => (h.sepBy_comma h.expr).andThen fun _ =>
    (follows_mark _).optional.andThen fun _ => (follows_mark _).andThen fun _ => follows_pure _

theorem field : Follows i n n' 1 r.field r'.field := by
  have hkey : Follows i n n' 1 key key :=
    follows_choice (.cons (follows_name _) (.cons (follows_token _ _) .nil)) (List.cons_ne_nil _ _)
  exact hkey.seq fun _ => (follows_mark _).andThen fun _ => h.expr.andThen fun _ => follows_pure _

theorem objectLiteral : Follows i n n' 1 r.objectLiteral r'.objectLiteral :=
  (follows_mark _).seq fun _ => (h.sepBy_comma h.inner.field).andThen fun _ =>
    (follows_mark _).optional.andThen fun _ => (follows_mark _).andThen fun _ => follows_pure _

theorem primary : Follows i n n' 1 r.primary r'.primary := by
  have hword (w : Keyword) (e : Expr) :
      Follows i n n' 1 (do word w; return e) (do word w; return e) :=
    (follows_word w).andThen fun _ => follows_pure e
  refine follows_choice (.cons ?_ (.cons ?_ (.cons (hword _ _) (.cons (hword _ _)
    (.cons (hword _ _) (.cons (hword _ _) (.cons h.functionLiteral (.cons ?_
    (.cons h.parenthesized (.cons h.arrayLiteral (.cons h.objectLiteral .nil)))))))))))
    (List.cons_ne_nil _ _)
  · exact (follows_token _ _).andThen fun _ => follows_pure _
  · exact (follows_token _ _).andThen fun _ => follows_pure _
  · exact (follows_name _).andThen fun _ => follows_pure _

theorem suffixForm : Follows i n n' 1 r.suffixForm r'.suffixForm := by
  refine follows_choice (.cons ?_ (.cons ?_ (.cons ?_ .nil))) (List.cons_ne_nil _ _)
  · exact (follows_mark _).seq fun _ => (h.sepBy_comma h.expr).andThen fun _ =>
      (follows_mark _).andThen fun _ => follows_pure _
  · exact (follows_mark _).andThen fun _ => (follows_name _).andThen fun _ => follows_pure _
  · exact (follows_mark _).seq fun _ => h.expr.andThen fun _ => (follows_mark _).andThen fun _ =>
      follows_pure _

theorem suffixed : Follows i n n' 1 r.suffixed r'.suffixed :=
  h.primary.seq fun _ => (h.inner.suffixForm.many h.bound h.bound').andThen fun _ => follows_pure _

theorem unaryRule : Follows i n n' 1 r.unaryRule r'.unaryRule := by
  have hop (m : Mark) (op : UnaryOp) :
      Follows i n n' 1 (do mark m; let e ← r.unary; return Expr.unary op e)
        (do mark m; let e ← r'.unary; return Expr.unary op e) :=
    (follows_mark m).seq fun _ => h.unary.andThen fun _ => follows_pure _
  exact follows_choice (.cons (hop _ _) (.cons (hop _ _) (.cons (hop _ _)
    (.cons h.suffixed .nil)))) (List.cons_ne_nil _ _)

omit h in
theorem operator {ops : List (Mark × (Expr → Expr → Expr))} (hops : ops ≠ []) :
    Follows i n n' 1 (operator ops) (operator ops) := by
  refine follows_choice ?_ fun hnil => hops (List.map_eq_nil_iff.1 hnil)
  rw [List.forall₂_map_left_iff, List.forall₂_map_right_iff]
  exact List.forall₂_same.2 fun _ _ => (follows_mark _).andThen fun _ => follows_pure _

theorem binary (hunary : Follows i n n' 1 r.unary r'.unary) :
    Follows i n n' 1 r.binary r'.binary := by
  have hlevels : ∀ ops ∈ levels, ops ≠ [] := by simp [levels]
  unfold Rules.binary
  generalize levels = ls at hlevels ⊢
  induction ls with
  | nil => exact hunary
  | cons ops ls ih =>
    obtain ⟨hops, hls⟩ := List.forall_mem_cons.1 hlevels
    have hoperand := ih hls
    have hmore := ((operator hops).andThen fun f => hoperand.andThen fun e =>
      follows_pure (f, e)).anti (Nat.sub_le n 1) (Nat.sub_le n' 1)
    exact hoperand.seq fun _ => (hmore.many h.bound h.bound').andThen fun _ => follows_pure _

theorem conditional (hunary : Follows i n n' 1 r.unary r'.unary) :
    Follows i n n' 1 r.conditional r'.conditional := by
  have harms := (follows_mark .question).andThen fun _ => h.expr.andThen fun c =>
    (follows_mark .colon).andThen fun _ => h.expr.andThen fun a => follows_pure (c, a)
  refine (h.binary hunary).seq (j := 0) fun test => harms.optional.andThen (j := 0) fun arms => ?_
  cases arms with
  | none => exact follows_pure _
  | some x => exact follows_pure _

theorem exprRule (hunary : Follows i n n' 1 r.unary r'.unary) :
    Follows i n n' 1 r.exprRule r'.exprRule := by
  have hvalue := (follows_mark .assign).andThen fun _ => h.expr
  refine (h.conditional hunary).seq (j := 0) fun target =>
    hvalue.optional.andThen (j := 0) fun value => ?_
  cases value with
  | none => exact follows_pure _
  | some value =>
    dsimp only
    split
    · exact follows_pure _
    · exact follows_reject _

theorem declarator : Follows i n n' 1 r.declarator r'.declarator :=
  (follows_name _).seq fun _ =>
    ((follows_mark _).andThen fun _ => h.expr).optional.andThen fun _ => follows_pure _

theorem branch (hstmt : Follows i n n' 1 r.stmt r'.stmt) : Follows i n n' 1 r.branch r'.branch :=
  follows_choice (.cons h.block (.cons (hstmt.andThen fun _ => follows_pure _) .nil))
    (List.cons_ne_nil _ _)

theorem declaration : Follows i n n' 1 r.declaration r'.declaration := by
  have hbindings := h.inner.declarator.sepBy1 (follows_mark .comma)
    (Nat.le_succ_of_le h.bound) (Nat.le_succ_of_le h.bound')
  exact (follows_token _ _).seq fun _ => hbindings.andThen fun _ =>
    (follows_mark _).optional.andThen fun _ => follows_pure _

theorem functionStmt : Follows i n n' 1 r.functionStmt r'.functionStmt :=
  (follows_word _).seq fun _ => (follows_name _).andThen fun _ =>
    h.inner.functionRest.andThen fun _ => (follows_mark _).optional.andThen fun _ => follows_pure _

theorem ifStmt : Follows i n n' 1 r.ifStmt r'.ifStmt := by
  have hbranch := h.inner.branch h.stmt
  exact (follows_word _).seq fun _ => (follows_mark _).andThen fun _ => h.expr.andThen fun _ =>
    (follows_mark _).andThen fun _ => hbranch.andThen fun _ =>
      ((follows_word _).andThen fun _ => hbranch).optional.andThen fun _ => follows_pure _

theorem returnStmt : Follows i n n' 1 r.returnStmt r'.returnStmt :=
  (follows_word _).seq fun _ => h.expr.optional.andThen fun _ =>
    (follows_mark _).optional.andThen fun _ => follows_pure _

theorem stmtRule (hexpr : Follows i n n' 1 r.expr r'.expr) :
    Follows i n n' 1 r.stmtRule r'.stmtRule := by
  refine follows_choice (.cons ?_ (.cons h.declaration (.cons h.functionStmt (.cons h.ifStmt
    (.cons h.returnStmt (.cons ?_ (.cons ?_ .nil))))))) (List.cons_ne_nil _ _)
  · exact h.block.andThen fun _ => follows_pure _
  · exact (follows_mark _).andThen fun _ => follows_pure _
  · exact hexpr.andThen fun _ => (follows_mark _).optional.andThen fun _ => follows_pure _

end Rules.Follow

/-- The rules at depth `d'` follow those at depth `d`, as far as the depths suffice: each token may
be behind a statement, an expression and an operand. -/
structure Deep (i d d' : Nat) : Prop where
  stmt : ∀ {n n' : Nat}, 4 * n ≤ d + 1 → 4 * n' ≤ d' + 1 →
    Follows i n n' 1 (rules d).stmt (rules d').stmt
  expr : ∀ {n n' : Nat}, 4 * n ≤ d + 2 → 4 * n' ≤ d' + 2 →
    Follows i n n' 1 (rules d).expr (rules d').expr
  unary : ∀ {n n' : Nat}, 4 * n ≤ d + 3 → 4 * n' ≤ d' + 3 →
    Follows i n n' 1 (rules d).unary (rules d').unary

namespace Deep

variable {i d d' : Nat}

theorem follow (h : Deep i d d') {n n' : Nat} (hn : 4 * n ≤ d) (hn' : 4 * n' ≤ d') :
    Rules.Follow i n n' (rules d) (rules d') where
  stmt := h.stmt (by omega) (by omega)
  expr := h.expr (by omega) (by omega)
  unary := h.unary (by omega) (by omega)
  bound := by
    rw [rules_bound]
    omega
  bound' := by
    rw [rules_bound]
    omega

theorem succ (h : Deep i d d') : Deep i (d + 1) (d' + 1) where
  stmt hn hn' := (h.follow (by omega) (by omega)).stmtRule (h.expr (by omega) (by omega))
  expr hn hn' := (h.follow (by omega) (by omega)).exprRule (h.unary (by omega) (by omega))
  unary hn hn' := (h.follow (by omega) (by omega)).unaryRule

theorem zero_right (h : Deep i d d') : Deep i d 0 := by
  constructor
  all_goals
    intro n n' hn hn'
    obtain rfl : n' = 0 := by omega
    have hzero {m : Nat} : 4 * 0 ≤ d' + m := Nat.zero_le _
  · exact (h.stmt hn hzero).of_zero
  · exact (h.expr hn hzero).of_zero
  · exact (h.unary hn hzero).of_zero

end Deep

theorem rules_follow (i d d' : Nat) : Deep i d d' := by
  induction d generalizing d' with
  | zero =>
    constructor
    all_goals
      intro n n' hn _
      obtain rfl : n = 0 := by omega
      exact follows_nothing
  | succ d ih =>
    cases d' with
    | zero => exact (ih 0).succ.zero_right
    | succ d' => exact (ih d').succ

theorem program_fails_alike {tokens tokens' : List Token} {t : Trouble}
    (h : program tokens = .error t)
    (htake : tokens'.take (t.index + 1) = tokens.take (t.index + 1)) :
    program tokens' = .error t := by
  have hstmts : Follows t.index (tokens.length + 1) (tokens'.length + 1) 0
      (many (rules (depthFor tokens)).stmt (rules (depthFor tokens)).bound)
      (many (rules (depthFor tokens')).stmt (rules (depthFor tokens')).bound) := by
    refine ((rules_follow t.index _ _).stmt ?_ ?_).many ?_ ?_
    all_goals
      simp only [rules_bound, depthFor]
      omega
  exact hstmts.whole (Nat.lt_succ_self _) (Nat.lt_succ_self _) htake h

end Grammar

/-! ## Positions -/

namespace Text

/-- Whole lines, or nothing. -/
def IsLines (cs : List Char) : Prop :=
  cs = [] ∨ ∃ before, cs = before ++ ['\n']

theorem exists_lines (cs : List Char) :
    ∃ lines line, cs = lines ++ line ∧ IsLines lines ∧ '\n' ∉ line := by
  induction cs using List.reverseRecOn with
  | nil => exact ⟨[], [], rfl, .inl rfl, List.not_mem_nil⟩
  | append_singleton cs c ih =>
    by_cases hc : c = '\n'
    · exact ⟨cs ++ [c], [], (List.append_nil _).symm, .inr ⟨cs, by rw [hc]⟩, List.not_mem_nil⟩
    · obtain ⟨lines, line, rfl, hlines, hline⟩ := ih
      refine ⟨lines, line ++ [c], List.append_assoc _ _ _, hlines, fun hmem => ?_⟩
      rcases List.mem_append.1 hmem with hmem | hmem
      · exact hline hmem
      · exact hc (List.mem_singleton.1 hmem).symm

namespace Position

theorem advance_append (p : Position) (before rest : List Char) :
    p.advance (before ++ rest) (byteLength before) = before.foldl after p := by
  induction before generalizing p with
  | nil =>
    cases rest with
    | nil => rfl
    | cons c rest => simp [advance, byteLength]
  | cons c before ih =>
    have hsize : byteLength (c :: before) ≠ 0 := by
      have hpos := c.utf8Size_pos
      change c.utf8Size + byteLength before ≠ 0
      omega
    have hrest : byteLength (c :: before) - c.utf8Size = byteLength before :=
      Nat.add_sub_cancel_left _ _
    rw [List.cons_append, advance, if_neg hsize, hrest, ih, List.foldl_cons]

theorem foldl_after_line (p : Position) {line : List Char} (h : '\n' ∉ line) :
    line.foldl after p = ⟨p.line, p.column + byteLength line⟩ := by
  induction line generalizing p with
  | nil => rfl
  | cons c line ih =>
    obtain ⟨hc, hline⟩ := not_or.1 (mt List.mem_cons.2 h)
    rw [List.foldl_cons, ih _ hline, after, if_neg (Ne.symm hc), Nat.add_assoc]
    rfl

theorem line_foldl_after (p : Position) (cs : List Char) :
    (cs.foldl after p).line = p.line + cs.count '\n' := by
  induction cs generalizing p with
  | nil => rfl
  | cons c cs ih =>
    rw [List.foldl_cons, ih, after]
    by_cases hc : c = '\n'
    · rw [if_pos hc, hc, List.count_cons_self, Nat.add_comm (List.count _ _), ← Nat.add_assoc]
    · rw [if_neg hc, List.count_cons_of_ne hc]

theorem foldl_after_lines {lines : List Char} (h : IsLines lines) :
    lines.foldl after ⟨1, 1⟩ = ⟨lines.count '\n' + 1, 1⟩ := by
  rcases h with rfl | ⟨before, rfl⟩
  · rfl
  · have hline : (before.foldl after ⟨1, 1⟩).line = 1 + before.count '\n' := line_foldl_after _ _
    rw [List.foldl_append, List.foldl_cons, List.foldl_nil, after, if_pos rfl, hline,
      List.count_append, List.count_singleton_self, Nat.add_comm 1]

end Position

/-- What stands after whole lines and a beginning of one more. -/
theorem positionAt_append {lines line : List Char} (hlines : IsLines lines) (hline : '\n' ∉ line)
    (rest : List Char) : positionAt (lines ++ line ++ rest) (byteLength (lines ++ line)) =
      ⟨lines.count '\n' + 1, byteLength line + 1⟩ := by
  rw [positionAt, Position.advance_append, List.foldl_append, Position.foldl_after_lines hlines,
    Position.foldl_after_line _ hline, Nat.add_comm 1]

end Text

/-- Where the tokens of a text cannot be read as a program, and the failure is at one of the tokens,
all tokens with the same ones up to there fail in the same way, with the same expectations. The
reported position is that of the first byte of the token, counted from the last line end before
it. -/
theorem failures_are_local {source : String} {ls : List Lexeme} {t : Trouble}
    (hlex : Lexer.lexemes source.toList = .ok ls)
    (hfail : Grammar.program (ls.map Lexeme.token) = .error t) (hindex : t.index < ls.length) :
    (∀ tokens : List Token,
      tokens.take (t.index + 1) = (ls.map Lexeme.token).take (t.index + 1) →
        Grammar.program tokens = .error t) ∧
    ∃ l lines line after, ls[t.index]? = some l ∧
      source.toList = lines ++ line ++ (l.text ++ after) ∧
      l.start = Text.byteLength (lines ++ line) ∧ Text.IsLines lines ∧ '\n' ∉ line ∧
      Program.parse source =
        .error (.parse ⟨lines.count '\n' + 1, Text.byteLength line + 1⟩ t.expected) := by
  refine ⟨fun tokens htake => Grammar.program_fails_alike hfail htake, ?_⟩
  have hl : ls[t.index]? = some ls[t.index] := List.getElem?_eq_getElem hindex
  obtain ⟨hcovers, -⟩ := Lexer.lexemesFrom_covers hlex
  obtain ⟨before, after, hsource, hstart, -⟩ := hcovers.split _ (List.getElem_mem hindex)
  obtain ⟨lines, line, rfl, hlines, hline⟩ := Text.exists_lines before
  rw [Nat.zero_add] at hstart
  refine ⟨_, lines, line, after, hl, hsource, hstart, hlines, hline, ?_⟩
  have hposition := Text.positionAt_append hlines hline (ls[t.index].text ++ after)
  have hread : readWith Grammar.program source =
      .error (.parse (Text.positionAt source.toList ls[t.index].start) t.expected) := by
    simp only [readWith, hlex, hfail, offsetOf, hl]
  rw [Program.parse, hread, hstart, hsource, hposition]
  rfl

/-- A declaration on the second line has no value. -/
def gappySource : String :=
  "var x = 1;\nvar y = ;"

theorem gappySource_fails_locally : ∃ ls t, Lexer.lexemes gappySource.toList = .ok ls ∧
    Grammar.program (ls.map Lexeme.token) = .error t ∧ t.index = 8 ∧ ls.length = 9 ∧
    (∀ tokens : List Token,
      tokens.take 9 = (ls.map Lexeme.token).take 9 → Grammar.program tokens = .error t) ∧
    ∃ l lines line after, ls[t.index]? = some l ∧
      gappySource.toList = lines ++ line ++ (l.text ++ after) ∧
      l.start = Text.byteLength (lines ++ line) ∧ Text.IsLines lines ∧ '\n' ∉ line ∧
      Program.parse gappySource =
        .error (.parse ⟨lines.count '\n' + 1, Text.byteLength line + 1⟩ t.expected) := by
  have hcounts : ((Lexer.lexemes gappySource.toList).toOption.bind fun ls =>
      match Grammar.program (ls.map Lexeme.token) with
      | .error t => some (t.index, ls.length)
      | .ok _ => none) = some (8, 9) := by
    decide +kernel
  cases hlex : Lexer.lexemes gappySource.toList with
  | error f =>
    rw [hlex] at hcounts
    cases hcounts
  | ok ls =>
    rw [hlex] at hcounts
    cases hfail : Grammar.program (ls.map Lexeme.token) with
    | ok body =>
      simp only [Except.toOption, Option.bind_some, hfail] at hcounts
      cases hcounts
    | error t =>
      simp only [Except.toOption, Option.bind_some, hfail] at hcounts
      obtain ⟨hindex, hlength⟩ := Prod.mk.inj (Option.some.inj hcounts)
      have hlocal := failures_are_local hlex hfail (by omega)
      rw [hindex] at hlocal
      exact ⟨ls, t, rfl, hfail, hindex, hlength, hindex ▸ hlocal⟩

end Chance
