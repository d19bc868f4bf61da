import HostScript.Proofs.Reader.Expressions
import HostScript.Proofs.Reader.Printing

/-! The longest expression.

The grammar of expressions has a level for each priority of binary operators. An expression of a level is
a chain of expressions of the level below, from left to right; the lowest level has the atoms, with prefix
operators before them. What is read is derived in this grammar from the text that was read, and no longer
piece of the text is derived in it at all: a reader that gives a result comes at least to the end of every
text that is derived from where it started, with an operand on the left (`Attains`), and exactly to its end
if the text behind it ends an expression. The proof follows the derivation. -/

namespace HostScript

open Grammar (ExprState)
open TokenStream Reader

/-! ### Levels -/

/-- The binary operators of a level. -/
def levelSymbols : Nat → List String
  | 1 => ["*", "/"]
  | 2 => ["+", "-"]
  | 3 => ["<", "<=", ">", ">="]
  | 4 => ["==", "!="]
  | 5 => ["&&"]
  | 6 => ["||"]
  | _ => []

/-- The expressions of a level with their words. -/
inductive Expr.OfLevel : Nat → Expr → List String → Prop
  | lift {k : Nat} {e : Expr} {ws : List String} (lower : OfLevel k e ws) : OfLevel (k + 1) e ws
  | binary {k : Nat} {left right : Expr} {ls rs : List String} (op : BinaryOp) (symbol : op.symbol ∈ levelSymbols (k + 1))
      (first : OfLevel (k + 1) left ls) (second : OfLevel k right rs) :
      OfLevel (k + 1) (binary op left right) (ls ++ op.symbol :: rs)
  | unary {e : Expr} {ws : List String} (op : UnaryOp) (operand : OfLevel 0 e ws) : OfLevel 0 (.unary op e) (op.symbol :: ws)
  | number {w : String} (number : isNumber w) (small : Decimal.value w.toList < integerLimit) :
      OfLevel 0 (.const (.integer (.ofNat (Decimal.value w.toList)))) [w]
  | boolean (b : Bool) : OfLevel 0 (.const (.boolean b)) [(Value.boolean b).text]
  | var {target : Variable} (named : isName target.name) (free : isKeyword target.name = false) :
      OfLevel 0 (.var target) [target.name]
  | call {name : String} {function : FunctionHandle} {returns : Ty} {args : List (Expr × List String)}
      (named : isName name) (free : isKeyword name = false) (derived : ∀ arg ∈ args, OfLevel 6 arg.1 arg.2) :
      OfLevel 0 (.call name function returns (args.map Prod.fst))
        (name :: "(" :: [","].intercalate (args.map Prod.snd) ++ [")"])
  | parenthesised {e : Expr} {ws : List String} (inner : OfLevel 6 e ws) : OfLevel 0 e ("(" :: ws ++ [")"])

/-- The text is derived as the expression, with any blanks between its words. -/
def Expr.DerivedFrom (e : Expr) (text : List Char) : Prop := ∃ ws, e.OfLevel 6 ws ∧ Strung ws text

theorem BinaryOp.symbol_mem_levelSymbols (op : BinaryOp) : op.symbol ∈ levelSymbols op.priority := by
  rcases op with op | op <;> cases op <;> decide

theorem BinaryOp.priority_of_mem {op : BinaryOp} {k : Nat} (h : op.symbol ∈ levelSymbols k) : op.priority = k := by
  unfold levelSymbols at h
  split at h
  case h_7 => cases h
  all_goals rcases op with op | op <;> cases op <;> revert h <;> decide

theorem BinaryOp.priority_pos (op : BinaryOp) : 0 < op.priority := by
  rcases op with op | op <;> cases op <;> decide

namespace Expr

variable {e : Expr} {ws : List String}

/-- No operator has priority zero. -/
theorem Spelled.zero (h : e.Spelled 1 ws) : e.Spelled 0 ws := by
  cases h with
  | number number small => exact .number number small
  | boolean b => exact .boolean b
  | var named free => exact .var named free
  | unary op inner => exact .unary op inner
  | binary op below =>
    have := op.priority_pos
    omega
  | call named free spelled => exact .call named free spelled
  | parenthesised inner => exact .parenthesised inner

theorem OfLevel.spelled {k : Nat} (h : e.OfLevel k ws) : e.Spelled (k + 1) ws := by
  induction h with
  | lift _ ih => exact ih.mono (Nat.le_succ _)
  | @binary k _ _ _ _ op symbol _ _ ihl ihr =>
    have hop := BinaryOp.priority_of_mem symbol
    exact .binary op (by omega) (hop ▸ ihl) (hop ▸ ihr)
  | unary op _ ih => exact .unary op ih.zero
  | number number small => exact .number number small
  | boolean b => exact .boolean b
  | var named free => exact .var named free
  | call named free _ ih => exact .call named free ih
  | parenthesised _ ih => exact .parenthesised ih

theorem OfLevel.mono {k k' : Nat} (h : e.OfLevel k ws) (hk : k ≤ k') : e.OfLevel k' ws := by
  induction hk with
  | refl => exact h
  | step _ ih => exact .lift ih

theorem Spelled.ofLevel {c : Nat} (h : e.Spelled c ws) : ∀ {k : Nat}, c ≤ k + 1 → e.OfLevel k ws := by
  induction h with
  | number number small => exact fun _ => (OfLevel.number number small).mono (Nat.zero_le _)
  | boolean b => exact fun _ => (OfLevel.boolean b).mono (Nat.zero_le _)
  | var named free => exact fun _ => (OfLevel.var named free).mono (Nat.zero_le _)
  | unary op _ ih => exact fun _ => (OfLevel.unary op (ih (Nat.zero_le _))).mono (Nat.zero_le _)
  | binary op below _ _ ihl ihr =>
    intro k hk
    obtain ⟨j, hj⟩ := Nat.exists_eq_succ_of_ne_zero (Nat.ne_of_gt op.priority_pos)
    have hsymbol := op.symbol_mem_levelSymbols
    rw [hj] at hsymbol
    exact (OfLevel.binary op hsymbol (ihl (by omega)) (ihr (by omega))).mono (by omega)
  | call named free _ ih =>
    exact fun _ => (OfLevel.call named free fun arg harg => ih arg harg (Nat.le_refl _)).mono (Nat.zero_le _)
  | parenthesised _ ih => exact fun _ => (OfLevel.parenthesised (ih (Nat.le_refl _))).mono (Nat.zero_le _)

end Expr

/-! ### Words and longer words -/

/-- A run of characters of one kind is at the front of all that stops before another kind. -/
theorem prefix_of_stops {P : Char → Bool} {u v w rest : List Char} (h : u ++ v = w ++ rest) (hu : ∀ c ∈ u, P c)
    (hrest : ∀ c ∈ rest.head?, P c = false) : u <+: w := by
  rcases List.append_eq_append_iff.mp h with ⟨more, rfl, -⟩ | ⟨more, rfl, rfl⟩
  · exact List.prefix_append u more
  · cases more with
    | nil => exact ⟨[], by simp⟩
    | cons d more =>
      have hd := hu d (by simp)
      rw [hrest d rfl] at hd
      cases hd

/-- A word and what is matched in its place: it is enough to know where the match stops. -/
theorem prefix_and_eq {P : Char → Bool} {word w tail rest : List Char} (h : word ++ tail = w ++ rest)
    (hword : ∀ c ∈ word, P c) (hw : ∀ c ∈ w, isNameChar c) (hrest : ∀ c ∈ rest.head?, P c = false) :
    word <+: w ∧ ((∀ c ∈ tail.head?, isWordChar c = false) → w = word) := by
  have hfront := prefix_of_stops h hword hrest
  refine ⟨hfront, fun htail => ?_⟩
  have hback := prefix_of_stops h.symm hw fun c hc => not_isNameChar_of_not_isWordChar (htail c hc)
  exact hback.eq_of_length (Nat.le_antisymm hback.length_le hfront.length_le)

theorem of_takeWhile_append {P : Char → Bool} {u rest : List Char} (h : (u ++ rest).takeWhile P = u) :
    (∀ c ∈ u, P c) ∧ ∀ c ∈ rest.head?, P c = false := by
  have hall : ∀ c ∈ u, P c := fun c hc => by
    rw [← h] at hc
    exact List.all_eq_true.mp List.all_takeWhile _ hc
  refine ⟨hall, fun c hc => ?_⟩
  rw [List.takeWhile_append_of_pos hall, List.append_right_eq_self] at h
  cases rest with
  | nil => cases hc
  | cons d rest =>
    cases hc
    simpa [List.takeWhile_cons] using h

namespace Pattern

variable {w rest : List Char}

theorem stops_of_match?_name (h : name.match? (w ++ rest) = some w) :
    (∀ c ∈ w, isNameChar c) ∧ ∀ c ∈ rest.head?, isNameChar c = false := by
  cases w with
  | nil => cases rest <;> simp [match?] at h
  | cons c cs =>
    simp only [List.cons_append, match?] at h
    split at h
    next hc =>
      obtain ⟨hcs, hrest⟩ := of_takeWhile_append (List.tail_eq_of_cons_eq (Option.some.inj h))
      exact ⟨List.forall_mem_cons.mpr ⟨isNameChar_of_isNameStart hc, hcs⟩, hrest⟩
    next => cases h

theorem stops_of_match?_number (h : number.match? (w ++ rest) = some w) :
    w ≠ [] ∧ (∀ c ∈ w, c.isDigit) ∧ ∀ c ∈ rest.head?, c.isDigit = false := by
  simp only [match?] at h
  split at h
  next => cases h
  next hne =>
    have htake := Option.some.inj h
    rw [htake] at hne
    exact ⟨by simpa using hne, of_takeWhile_append htake⟩

end Pattern

section Words

variable {word : String} (hword : isName word ∨ isNumber word) {tail w rest : List Char}
include hword

theorem isNameChar_of_mem : ∀ c ∈ word.toList, isNameChar c := by
  intro c hc
  rcases hword with hword | hword
  · exact isNameChar_of_mem_name hword hc
  · exact isNameChar_of_isDigit (isDigit_of_mem_number hword hc)

theorem match?_sign_of_word {s : String} (hs : s.toList.head?.all (!isNameChar ·) && !s.toList.isEmpty) :
    (Pattern.sign s).match? (word.toList ++ tail) = none := by
  have hsolid : Solid word := hword.elim solid_of_isName solid_of_isNumber
  obtain ⟨d, ds, hl⟩ := List.exists_cons_of_ne_nil hsolid.1
  have hnone := @Pattern.match?_sign_of_nameChar (String.ofList (word.toList ++ tail)) s hs d (ds ++ tail) (by simp [hl])
    (isNameChar_of_mem hword d (hl ▸ List.mem_cons_self))
  rwa [String.toList_ofList] at hnone

/-- Only a number begins with a digit. -/
theorem isDigit_of_number (h : Pattern.number.match? (word.toList ++ tail) = some w) : ∀ c ∈ word.toList, c.isDigit := by
  obtain ⟨rest, hrest⟩ := Pattern.append_of_match? h
  rw [hrest] at h
  obtain ⟨hne, hw, -⟩ := Pattern.stops_of_match?_number h
  rcases hword with hword | hword
  · obtain ⟨d, ds, hl, hd, -⟩ := cons_of_isName hword
    obtain ⟨d', ds', rfl⟩ := List.exists_cons_of_ne_nil hne
    rw [hl] at hrest
    have hdigit := hw d' List.mem_cons_self
    rw [← (List.cons.inj hrest).1, not_isDigit_of_isNameStart hd] at hdigit
    cases hdigit
  · exact fun c hc => isDigit_of_mem_number hword hc

/-- What a form of an operand takes where a word stands begins with the word, and is the word if no longer
    word stands there. -/
theorem Terminal.prefix_of_match? {form : Terminal} (hform : .terminal form ∈ Grammar.expression.matchers .pre)
    (h : form.pattern.match? (word.toList ++ tail) = some w) :
    word.toList <+: w ∧ ((∀ c ∈ tail.head?, isWordChar c = false) → w = word.toList) := by
  obtain ⟨rest, hrest⟩ := Pattern.append_of_match? h
  have hchars := isNameChar_of_mem hword
  rcases cases_of_mem_pre hform with ⟨op, rfl⟩ | ⟨b, rfl⟩ | rfl | rfl | rfl
  · cases (match?_sign_of_word hword (by cases op <;> decide)).symm.trans h
  · rw [hrest] at h
    obtain ⟨rfl, hstop⟩ := Pattern.eq_of_match?_keyword h
    have hkeyword : (Value.boolean b).text.toList.all isNameChar := by cases b <;> decide
    exact prefix_and_eq hrest hchars (List.all_eq_true.mp hkeyword) fun c hc =>
      not_isNameChar_of_not_isWordChar (hstop c hc)
  · cases (match?_sign_of_word hword (by decide)).symm.trans h
  · rw [hrest] at h
    obtain ⟨hw, hstop⟩ := Pattern.stops_of_match?_name h
    exact prefix_and_eq hrest hchars hw hstop
  · have hdigits := isDigit_of_number hword h
    rw [hrest] at h
    obtain ⟨-, hw, hstop⟩ := Pattern.stops_of_match?_number h
    exact prefix_and_eq hrest hdigits (fun c hc => isNameChar_of_isDigit (hw c hc)) hstop

end Words

namespace Reader

variable {ctx : Context} {p q : Place} {s s' : TokenStream ExprState}

/-! ### Readers and longer texts -/

/-- The loop over operators goes forward, or stays if no operator below the ceiling is ahead. -/
theorem reaches_of_operators : ∀ (n : Nat) {c : Nat} {q : Place} {s s' : TokenStream ExprState} {left e : Expr},
    Stands ctx.rules Grammar.expression .post q s → operators ctx n c left s = .ok e s' →
      ∃ q', q.Reaches q' ∧ Stands ctx.rules Grammar.expression .post q' s' ∧
        ((∀ op ∈ operatorAhead q.rest, c ≤ op.priority) → q' = q)
  | 0, _, _, _, _, _, _, _, h => by cases h
  | n + 1, c, q, s, s', left, e, hs, h => by
    rcases operators_eq_ok hs h with ⟨-, hs', -⟩ | ⟨op, q₁, right, s₁, hahead, hlt, hsign, hread, h⟩
    · exact ⟨q, .refl q, hs', fun _ => rfl⟩
    · obtain ⟨q₂, hright, hs₁, -⟩ := (ExpressionsSpelled.all n).subexpression (stands_fresh ..) hread
      obtain ⟨q', hq', hs', -⟩ := reaches_of_operators n hs₁ h
      refine ⟨q', hsign.reaches.trans (hright.reaches.trans hq'), hs', fun hstop => ?_⟩
      have := hstop op hahead
      omega

/-- A reader of expressions at `p` that gives a result comes to read operators at `q` or behind it, and at
    `q` itself if the text there ends an expression under the ceiling. -/
def Attains (ctx : Context) (c₀ : Nat) (p q : Place) : Prop :=
  ∀ ⦃n c : Nat⦄ ⦃s s' : TokenStream ExprState⦄ ⦃e : Expr⦄, c₀ ≤ c → Stands ctx.rules Grammar.expression .pre p s →
    subexpression ctx n c s = .ok e s' → ∃ m left q₁ s₁, q.Reaches q₁ ∧ (Ahead c₀ q.rest → q₁ = q) ∧
      Stands ctx.rules Grammar.expression .post q₁ s₁ ∧ operators ctx m c left s₁ = .ok e s'

theorem attains_of_operand {c₀ : Nat} (h : ∀ ⦃n : Nat⦄ ⦃s s' : TokenStream ExprState⦄ ⦃e : Expr⦄,
    Stands ctx.rules Grammar.expression .pre p s → operand ctx (n + 1) s = .ok e s' →
      ∃ q₁, q.Reaches q₁ ∧ (Ahead c₀ q.rest → q₁ = q) ∧ Stands ctx.rules Grammar.expression .post q₁ s') :
    Attains ctx c₀ p q := by
  intro n c s s' e _ hs hread
  cases n with
  | zero => cases hread
  | succ n =>
    obtain ⟨left, s₁, hoperand, hoperators⟩ := EStateM.ok_of_bind hread
    cases n with
    | zero => cases hoperand
    | succ n =>
      obtain ⟨q₁, hreaches, hexact, hs₁⟩ := h hs hoperand
      exact ⟨n + 1, left, q₁, s₁, hreaches, hexact, hs₁, hoperators⟩

/-- A result under the same ceiling leaves the stream at `q` or behind it. -/
theorem Attains.reaches {c n : Nat} {e : Expr} (h : Attains ctx c p q)
    (hs : Stands ctx.rules Grammar.expression .pre p s) (hread : subexpression ctx n c s = .ok e s') :
    ∃ q', q.Reaches q' ∧ Stands ctx.rules Grammar.expression .post q' s' ∧
      (Ahead c q.rest → (∀ op ∈ operatorAhead q.rest, c ≤ op.priority) → q' = q) := by
  obtain ⟨m, left, q₁, s₁, hreaches, hexact, hs₁, hoperators⟩ := h (Nat.le_refl c) hs hread
  obtain ⟨q', hq₁q', hs', hstay⟩ := reaches_of_operators m hs₁ hoperators
  refine ⟨q', hreaches.trans hq₁q', hs', fun hf hstop => ?_⟩
  obtain rfl := hexact hf
  exact hstay hstop

/-- Where no operator below the ceiling follows, nothing else is read. -/
theorem Attains.ends {c n : Nat} {e : Expr} (h : Attains ctx c p q) (hf : Ahead (c + 1) q.rest)
    (hs : Stands ctx.rules Grammar.expression .pre p s) (hread : subexpression ctx n c s = .ok e s') :
    Stands ctx.rules Grammar.expression .post q s' := by
  obtain ⟨q', -, hs', hexact⟩ := h.reaches hs hread
  rwa [hexact (hf.mono (Nat.le_succ c)) fun op hop => Nat.le_of_succ_le_succ (hf.operator op hop)] at hs'

/-- The word at `p` was consumed. -/
theorem accept_at {state next : ExprState} {kinds : List TokenKind} {gap : List Char} {w : String} {kind : TokenKind}
    {payload : Payload} {found : Option Token} (hs : Stands ctx.rules Grammar.expression state p s)
    (hpq : p.Spans (gap ++ w.toList) q) (hg : ∀ c ∈ gap, isBlank c) (hw : Solid w)
    (hf : Matcher.find? (String.ofList (w.toList ++ q.rest)) (Grammar.expression.matchers state) =
      some (kind, w.toList, payload)) (hk : kinds.contains kind) (h : accept ctx kinds next s = .ok found s') :
    ∃ position, found = some ⟨kind, w, position, payload⟩ ∧ Stands ctx.rules Grammar.expression next q s' := by
  obtain ⟨position, q', hreads, hpq'⟩ := reads_word ctx state kinds next hpq.rest hg hw hf hk
  obtain ⟨rfl, hs'⟩ := hreads.eq hs h
  exact ⟨position, rfl, hpq.unique hpq' ▸ hs'⟩

/-- What was consumed is what a form matched behind the blanks. -/
theorem accept_match {state next : ExprState} {kinds : List TokenKind} {token : Token}
    (hs : Stands ctx.rules Grammar.expression state p s) (h : accept ctx kinds next s = .ok (some token) s') :
    ∃ (form : Terminal) (w : List Char) (q : Place), .terminal form ∈ Grammar.expression.matchers state ∧
      form.pattern.match? p.skip.rest = some w ∧ p.skip.Spans w q ∧ s' = fresh Grammar.expression next q := by
  obtain ⟨q, form, hmem, -, -, hattempt, -, hs'⟩ := accept_some hs h
  cases form with
  | rule form => cases expression_lexical state _ hmem
  | terminal form =>
    obtain ⟨w, payload, hmatch, -, -, hbehind⟩ := Terminal.attempt_eq_token hattempt
    cases hbehind
    obtain ⟨tail, htail⟩ := Pattern.append_of_match? hmatch
    exact ⟨form, w, _, hmem, hmatch, Place.spans_drop htail, hs'⟩

/-- An operand that begins with a name or a number. -/
theorem operand_of_word {n : Nat} {e : Expr} (hs : Stands ctx.rules Grammar.expression .pre p s)
    (h : operand ctx (n + 1) s = .ok e s') (hstart : ∀ c ∈ p.skip.rest.head?, isNameChar c) :
    ∃ (form : Terminal) (w : List Char) (q₁ q₂ : Place), .terminal form ∈ Grammar.expression.matchers .pre ∧
      form.pattern.match? p.skip.rest = some w ∧ p.skip.Spans w q₁ ∧ q₁.Reaches q₂ ∧
      Stands ctx.rules Grammar.expression .post q₂ s' ∧
      ((Grammar.expression.ahead? .pre q₁.rest).any ([TokenKind.leftPar].contains ·.1) = false → q₂ = q₁) := by
  have hnot {w : String} {q : Place} (hsolid : Solid w) (hsign : isSign w) : ¬p.Words [w] q := by
    intro hwords
    obtain ⟨d, ds, hl, hd⟩ := head_of_isSign hsign
    rw [hstart d (by rw [(hwords.spans_skip hsolid).rest, hl]; rfl)] at hd
    cases hd
  obtain ⟨par, s₁, ha, h⟩ := EStateM.ok_of_bind h
  cases par with
  | some par =>
    obtain ⟨q₁, hopen, -⟩ := accept_sign hs ha "(" (by decide)
    exact absurd hopen.words (hnot (by decide) (by decide))
  | none =>
    have hs₁ := Reader.accept_none hs ha
    obtain ⟨name, s₂, ha, h⟩ := EStateM.ok_of_bind h
    cases name with
    | some name =>
      obtain ⟨form, w, q₁, hform, hmatch, hspans, rfl⟩ := accept_match hs₁ ha
      obtain ⟨par, s₃, ha, h⟩ := EStateM.ok_of_bind h
      have hs₂ := stands_fresh ctx.rules Grammar.expression .pre q₁
      cases par with
      | some par =>
        obtain ⟨q₂, hopen, rfl⟩ := accept_sign hs₂ ha "(" (by decide)
        obtain ⟨args, s₄, hread, h⟩ := EStateM.ok_of_bind h
        obtain ⟨q₃, ⟨_, -, hargs, -⟩, hs₄⟩ := (ExpressionsSpelled.all n).callArgs (stands_fresh ..) hread
        obtain ⟨function, s₅, hres, hcall⟩ := EStateM.ok_of_bind h
        obtain ⟨-, rfl⟩ := resolveFunction_eq_ok hres
        obtain ⟨-, rfl⟩ := locate_eq_ok hcall
        refine ⟨form, w, q₁, q₃, hform, hmatch, hspans, hopen.reaches.trans hargs.reaches, hs₄, fun huncalled => ?_⟩
        have hnone : Reads ctx Grammar.expression (accept ctx [.leftPar] .post) .pre q₁ none .pre q₁ :=
          .none_ahead (by decide) (expression_lexical .pre) huncalled
        cases (hnone.eq hs₂ ha).1
      | none =>
        have hs₃ := Reader.accept_none hs₂ ha
        obtain ⟨_, s₄, hset, h⟩ := EStateM.ok_of_bind h
        obtain ⟨-, hs₄⟩ := (Reads.setState ExprState.post).eq hs₃ hset
        obtain ⟨target, s₅, hres, hvar⟩ := EStateM.ok_of_bind h
        obtain ⟨-, rfl⟩ := resolveVariable_eq_ok hres
        cases hvar
        exact ⟨form, w, q₁, q₁, hform, hmatch, hspans, .refl q₁, hs₄, fun _ => rfl⟩
    | none =>
      have hs₂ := Reader.accept_none hs₁ ha
      obtain ⟨sign, s₃, ha, h⟩ := EStateM.ok_of_bind h
      cases sign with
      | some token =>
        obtain ⟨form, w, q₁, hw, hpasses, rfl⟩ := accept_lexical hs₂ ha (expression_lexical .pre)
        obtain ⟨op, s₄, hop, h⟩ := EStateM.ok_of_bind h
        obtain ⟨hpayload, -⟩ := prefixOp_eq_ok hop
        rw [hw.unary hpayload] at hpasses
        exact absurd hpasses.words (hnot op.solid_symbol op.isSign_symbol)
      | none =>
        have hs₃ := Reader.accept_none hs₂ ha
        obtain ⟨token, s₄, he, h⟩ := EStateM.ok_of_bind h
        obtain ⟨form, w, q₁, hform, hmatch, hspans, rfl⟩ := accept_match hs₃ (expect_eq_ok he)
        obtain ⟨value, -, -, rfl⟩ := constant_eq_ok h
        exact ⟨form, w, q₁, q₁, hform, hmatch, hspans, .refl q₁, stands_fresh .., fun _ => rfl⟩

theorem attains_word {c₀ : Nat} {w : String} (hw : isName w ∨ isNumber w) {gap : List Char} (hg : ∀ c ∈ gap, isBlank c)
    (hpq : p.Spans (gap ++ w.toList) q) : Attains ctx c₀ p q := by
  have hsolid : Solid w := hw.elim solid_of_isName solid_of_isNumber
  have hskip := (Place.Words.word hg w hpq).spans_skip hsolid
  have hstart : ∀ c ∈ p.skip.rest.head?, isNameChar c := by
    intro c hc
    obtain ⟨d, ds, hl⟩ := List.exists_cons_of_ne_nil hsolid.1
    rw [hskip.rest, hl] at hc
    cases hc
    exact isNameChar_of_mem hw c (hl ▸ List.mem_cons_self)
  refine attains_of_operand fun n s s' e hs h => ?_
  obtain ⟨form, text, q₁, q₂, hform, hmatch, hspans, hreaches, hs', huncalled⟩ := operand_of_word hs h hstart
  rw [hskip.rest] at hmatch
  obtain ⟨⟨more, rfl⟩, hexact⟩ := Terminal.prefix_of_match? hw hform hmatch
  have hmore := hskip.of_append hspans
  refine ⟨q₂, hmore.reaches.trans hreaches, fun hf => ?_, hs'⟩
  obtain rfl : more = [] := by simpa using hexact hf.ends
  obtain rfl := hmore.unique (.refl q)
  exact huncalled hf.uncalled

/-- What reading the arguments of a call to their end asks of each of them. -/
def AttainsArg (ctx : Context) (arg : Expr × List String) : Prop :=
  ∀ ⦃u : List Char⦄ ⦃p q : Place⦄, Joined arg.2 u → p.Spans u q → Attains ctx BinaryOp.loosest p q

theorem moreArgs_ends : ∀ {args : List (Expr × List String)} {u : List Char} {p q : Place} {n : Nat}
    {s s' : TokenStream ExprState} {es : List Expr}, args ≠ [] → (∀ arg ∈ args, AttainsArg ctx arg) →
    Joined ([","].intercalate (args.map Prod.snd) ++ [")"]) u → p.Spans u q →
    Stands ctx.rules Grammar.expression .pre p s → moreArgs ctx n s = .ok es s' →
      Stands ctx.rules Grammar.expression .post q s'
  | [], _, _, _, _, _, _, _, hne, _, _, _, _, _ => absurd rfl hne
  | _ :: _, _, _, _, 0, _, _, _, _, _, _, _, _, h => by cases h
  | [arg], u, p, q, n + 1, s, s', es, _, hargs, hu, hpq, hs, h => by
    simp only [List.map_cons, List.map_nil, List.intercalate_singleton] at hu
    obtain ⟨u₁, u₂, rfl, h₁, h₂⟩ := hu.split
    obtain ⟨gap, rfl, hg⟩ := h₂.of_singleton
    obtain ⟨q₁, hpq₁, hq₁q⟩ := hpq.split
    obtain ⟨first, s₁, hread, h⟩ := EStateM.ok_of_bind h
    have hs₁ := (hargs arg List.mem_cons_self h₁ hpq₁).ends (hq₁q.rest ▸ .closing (by decide) hg q.rest) hs hread
    obtain ⟨par, s₂, ha, h⟩ := EStateM.ok_of_bind h
    obtain ⟨position, rfl, hs₂⟩ := accept_at hs₁ hq₁q hg (by decide) (find?_post_rightPar q.rest) rfl ha
    cases h
    exact hs₂
  | arg :: arg' :: args, u, p, q, n + 1, s, s', es, _, hargs, hu, hpq, hs, h => by
    rw [intercalate_words, List.append_assoc, List.cons_append] at hu
    obtain ⟨u₁, u₂, rfl, h₁, h₂⟩ := hu.split
    obtain ⟨gap, u₃, rfl, hg, -, h₃⟩ := h₂.of_cons
    obtain ⟨q₁, hpq₁, hq₁q⟩ := hpq.split
    obtain ⟨q₂, hq₁q₂, hq₂q⟩ := hq₁q.split
    have hcomma : (Grammar.expression.ahead? .post q₁.rest).any ([TokenKind.rightPar].contains ·.1) = false := by
      rw [hq₁q₂.rest, Grammar.ahead?_word hg (by decide), find?_post_comma]
      rfl
    have hnone : Reads ctx Grammar.expression (accept ctx [.rightPar] .post) .post q₁ none .post q₁ :=
      .none_ahead (by decide) (expression_lexical .post) hcomma
    obtain ⟨first, s₁, hread, h⟩ := EStateM.ok_of_bind h
    have hs₁ := (hargs arg List.mem_cons_self h₁ hpq₁).ends (hq₁q₂.rest ▸ .closing (by decide) hg q₂.rest) hs hread
    obtain ⟨par, s₂, ha, h⟩ := EStateM.ok_of_bind h
    obtain ⟨rfl, hs₂⟩ := hnone.eq hs₁ ha
    obtain ⟨comma, s₃, he, h⟩ := EStateM.ok_of_bind h
    obtain ⟨position, -, hs₃⟩ := accept_at hs₂ hq₁q₂ hg (by decide) (find?_post_comma q₂.rest) rfl (expect_eq_ok he)
    obtain ⟨rest, s₄, hmore, h⟩ := EStateM.ok_of_bind h
    cases h
    exact moreArgs_ends (List.cons_ne_nil arg' args) (fun a ha => hargs a (List.mem_cons_of_mem arg ha)) h₃ hq₂q hs₃ hmore

theorem callArgs_ends {args : List (Expr × List String)} {u : List Char} {n : Nat} {es : List Expr}
    (hargs : ∀ arg ∈ args, AttainsArg ctx arg) (hspelled : ∀ arg ∈ args, Expr.Spelled BinaryOp.loosest arg.1 arg.2)
    (hu : Joined ([","].intercalate (args.map Prod.snd) ++ [")"]) u) (hpq : p.Spans u q)
    (hs : Stands ctx.rules Grammar.expression .post p s) (h : callArgs ctx n s = .ok es s') :
    Stands ctx.rules Grammar.expression .post q s' := by
  cases n with
  | zero => cases h
  | succ n =>
    obtain ⟨par, s₁, ha, h⟩ := EStateM.ok_of_bind h
    cases args with
    | nil =>
      obtain ⟨gap, rfl, hg⟩ := hu.of_singleton
      obtain ⟨position, rfl, hs₁⟩ := accept_at hs hpq hg (by decide) (find?_post_rightPar q.rest) rfl ha
      cases h
      exact hs₁
    | cons arg args =>
      have hopen := not_ahead_of_args (hspelled arg List.mem_cons_self) hu q.rest
      rw [← hpq.rest] at hopen
      have hnone : Reads ctx Grammar.expression (accept ctx [.rightPar] .post) .post p none .post p :=
        .none_ahead (by decide) (expression_lexical .post) hopen
      obtain ⟨rfl, hs₁⟩ := hnone.eq hs ha
      obtain ⟨_, s₂, hset, h⟩ := EStateM.ok_of_bind h
      obtain ⟨-, hs₂⟩ := (Reads.setState ExprState.pre).eq hs₁ hset
      exact moreArgs_ends (List.cons_ne_nil arg args) hargs hu hpq hs₂ h

end Reader

/-- A reader of expressions comes to the end of every text that is spelled from where it starts. -/
theorem Expr.Spelled.attains {ctx : Context} {c : Nat} {e : Expr} {ws : List String} (h : e.Spelled c ws) :
    ∀ ⦃u : List Char⦄ ⦃p q : Place⦄, Joined ws u → p.Spans u q → Attains ctx c p q := by
  induction h with
  | number number =>
    intro u p q hu hpq
    obtain ⟨gap, rfl, hg⟩ := hu.of_singleton
    exact attains_word (.inr number) hg hpq
  | boolean b =>
    intro u p q hu hpq
    obtain ⟨gap, rfl, hg⟩ := hu.of_singleton
    exact attains_word (.inl (by cases b <;> decide)) hg hpq
  | var named =>
    intro u p q hu hpq
    obtain ⟨gap, rfl, hg⟩ := hu.of_singleton
    exact attains_word (.inl named) hg hpq
  | unary op _ ih =>
    intro u p q hu hpq
    obtain ⟨gap, v, rfl, hg, -, hv⟩ := hu.of_cons
    obtain ⟨q₁, hpq₁, hq₁q⟩ := hpq.split
    have hfind := find?_pre_unary op q₁.rest
    refine attains_of_operand fun n s s' e hs h => ?_
    obtain ⟨par, s₁, ha, h⟩ := EStateM.ok_of_bind h
    obtain ⟨rfl, hs₁⟩ := (reads_not hpq₁.rest hg op.solid_symbol hfind rfl .pre).eq hs ha
    obtain ⟨name, s₂, ha, h⟩ := EStateM.ok_of_bind h
    obtain ⟨rfl, hs₂⟩ := (reads_not hpq₁.rest hg op.solid_symbol hfind rfl .pre).eq hs₁ ha
    obtain ⟨sign, s₃, ha, h⟩ := EStateM.ok_of_bind h
    obtain ⟨position, rfl, hs₃⟩ := accept_at hs₂ hpq₁ hg op.solid_symbol hfind rfl ha
    obtain ⟨op', s₄, hop, hbehind⟩ := EStateM.ok_of_bind h
    obtain ⟨-, rfl⟩ := prefixOp_eq_ok hop
    obtain ⟨inner, s₅, hread, hlocate⟩ := EStateM.ok_of_bind hbehind
    obtain ⟨-, rfl⟩ := locate_eq_ok hlocate
    obtain ⟨q₂, hreaches, hs₅, hexact⟩ := (ih hv hq₁q).reaches hs₃ hread
    -- under the lowest ceiling no operator is read
    exact ⟨q₂, hreaches, fun hf => hexact (hf.mono (Nat.zero_le _)) fun _ _ => Nat.zero_le _, hs₅⟩
  | @binary c left right ls rs op below first second ihl ihr =>
    intro u p q hu hpq
    obtain ⟨u₁, u₂, rfl, h₁, h₂⟩ := hu.split
    obtain ⟨gap, v, rfl, hg, -, hv⟩ := h₂.of_cons
    obtain ⟨q₁, hpq₁, hq₁q⟩ := hpq.split
    obtain ⟨q₂, hq₁q₂, hq₂q⟩ := hq₁q.split
    obtain ⟨w, rest, rfl, hstarts⟩ := second.starts
    have hv' := (hv.head_of_starts hstarts q.rest).1
    rw [← hq₂q.rest] at hv'
    have hahead : operatorAhead q₁.rest = some op := hq₁q₂.rest ▸ operatorAhead_symbol op hg hv'
    intro n c' s s' e hc hs hread
    obtain ⟨m, _, _, s₁, -, hexact, hs₁, hoperators⟩ := ihl h₁ hpq₁ (by omega) hs hread
    obtain rfl := hexact (hq₁q₂.rest ▸ .symbol op hg hv')
    cases m with
    | zero => cases hoperators
    | succ m =>
      rcases operators_eq_ok hs₁ hoperators with ⟨-, -, hstop⟩ | ⟨_, q₂', right, s₂, hop, -, hsign, hright, hoperators⟩
      · have := hstop op hahead
        omega
      · rw [hahead] at hop
        cases hop
        have hsame := (hsign.words.spans_skip op.solid_symbol).unique
          ((Place.Words.word hg op.symbol hq₁q₂).spans_skip op.solid_symbol)
        rw [hsame] at hright
        obtain ⟨q₃, hreaches, hs₂, hexact⟩ := (ihr hv hq₂q).reaches (stands_fresh ..) hright
        refine ⟨m, _, q₃, s₂, hreaches, fun hf => hexact (hf.mono (by omega)) fun other hother => ?_, hs₂, hoperators⟩
        have := hf.operator other hother
        omega
  | @call c name function returns args named free spelled ih =>
    intro u p q hu hpq
    obtain ⟨gap, u₁, rfl, hg, -, h₁⟩ := hu.of_cons
    obtain ⟨gap', u₂, rfl, hg', -, h₂⟩ := h₁.of_cons
    obtain ⟨q₁, hpq₁, hq₁q⟩ := hpq.split
    obtain ⟨q₂, hq₁q₂, hq₂q⟩ := hq₁q.split
    have hw := solid_of_isName named
    have hends := Ahead.ends_sign hg' (show "(".toList.head? = some '(' from rfl) (by decide) q₂.rest
    rw [← hq₁q₂.rest] at hends
    have hfind := (find?_pre_append hw.1 hends).trans (find?_pre_name named free)
    refine attains_of_operand fun n s s' e hs h => ?_
    obtain ⟨par, s₁, ha, h⟩ := EStateM.ok_of_bind h
    obtain ⟨rfl, hs₁⟩ := (reads_not hpq₁.rest hg hw hfind rfl .pre).eq hs ha
    obtain ⟨found, s₂, ha, h⟩ := EStateM.ok_of_bind h
    obtain ⟨position, rfl, hs₂⟩ := accept_at hs₁ hpq₁ hg hw hfind rfl ha
    obtain ⟨par, s₃, ha, h⟩ := EStateM.ok_of_bind h
    obtain ⟨position', rfl, hs₃⟩ := accept_at hs₂ hq₁q₂ hg' (by decide) (find?_pre_leftPar q₂.rest) rfl ha
    obtain ⟨es, s₄, hread, h⟩ := EStateM.ok_of_bind h
    obtain ⟨function', s₅, hres, hcall⟩ := EStateM.ok_of_bind h
    obtain ⟨-, rfl⟩ := resolveFunction_eq_ok hres
    obtain ⟨-, rfl⟩ := locate_eq_ok hcall
    exact ⟨q, .refl q, fun _ => rfl, callArgs_ends ih spelled h₂ hq₂q hs₃ hread⟩
  | @parenthesised c e ws inner ih =>
    intro u p q hu hpq
    obtain ⟨gap, u₁, rfl, hg, -, h₁⟩ := hu.of_cons
    obtain ⟨u₂, u₃, rfl, h₂, h₃⟩ := h₁.split
    obtain ⟨gap', rfl, hg'⟩ := h₃.of_singleton
    obtain ⟨q₁, hpq₁, hq₁q⟩ := hpq.split
    obtain ⟨q₂, hq₁q₂, hq₂q⟩ := hq₁q.split
    refine attains_of_operand fun n s s' e hs h => ?_
    obtain ⟨par, s₁, ha, h⟩ := EStateM.ok_of_bind h
    obtain ⟨position, rfl, hs₁⟩ := accept_at hs hpq₁ hg (by decide) (find?_pre_leftPar q₁.rest) rfl ha
    obtain ⟨tree, s₂, hread, h⟩ := EStateM.ok_of_bind h
    have hs₂ := (ih h₂ hq₁q₂).ends (hq₂q.rest ▸ .closing (by decide) hg' q.rest) hs₁ hread
    obtain ⟨_, s₃, he, h⟩ := EStateM.ok_of_bind h
    obtain ⟨position', -, hs₃⟩ := accept_at hs₂ hq₂q hg' (by decide) (find?_post_rightPar q.rest) rfl (expect_eq_ok he)
    cases h
    exact ⟨q, .refl q, fun _ => rfl, hs₃⟩

/-- Where an expression is read, all that is spelled from the same start was read. -/
theorem Reader.reaches_of_expression {ctx : Context} {p q r : Place} {e e' : Expr} {ws : List String} {v : List Char}
    (h : Reader.expression ctx (.ofPlace p) = .ok (e, .ofPlace q)) (hspelled : e'.Spelled BinaryOp.loosest ws)
    (hv : Joined ws v) (hpr : p.Spans v r) : r.Reaches q := by
  obtain ⟨s', hread, hbehind⟩ := run_eq_ok h
  have hs : Stands ctx.rules Grammar.expression .pre p (.ofCursor Grammar.expression (.ofPlace p)) := stands_fresh ..
  obtain ⟨q', hreaches, hs₂, -⟩ := (hspelled.attains hv hpr).reaches hs hread
  rw [hs₂.release] at hbehind
  cases hbehind
  exact hreaches

/-- An expression that is read is the one that the grammar derives from the text that was read, with the
    variables and functions in scope, and no longer text from the same start is derived in the grammar. -/
theorem expression_longest {scope : Scope} {p : Place} {e : Expr} {behind : Cursor}
    (h : Reader.expression scope.context (.ofPlace p) = .ok (e, behind)) :
    ∃ u q, behind = .ofPlace q ∧ p.Spans u q ∧ e.DerivedFrom u ∧ e.Typed scope ∧
      ∀ v, v <+: p.rest → ∀ e' : Expr, e'.DerivedFrom v → v.length ≤ u.length := by
  obtain ⟨q, rfl, ws, ⟨⟨u, hu, hws⟩, -⟩, hspelled⟩ := Reader.covers_of_expression h
  refine ⟨u, q, rfl, hu, ⟨ws, hspelled.ofLevel (Nat.le_refl _), hws.strung⟩, ?_, ?_⟩
  · exact typed_expression Rule.typed_read h
  · rintro v ⟨tail, hv⟩ e' ⟨ws', hlevel, hstrung⟩
    have hjoined := hstrung.joined hlevel.spelled.alternating
    have hspans := Place.spans_drop hv.symm
    obtain ⟨front, hfront, -⟩ := reaches_of_expression h hlevel.spelled hjoined hspans
    have hlength := congrArg List.length (hu.rest.symm.trans hspans.rest)
    rw [hfront, List.length_append, List.length_append, List.length_append] at hlength
    omega

/-- A comparison up to a parenthesis that closes nothing. -/
theorem expression_longest_comparison :
    let scope := Scope.bind ⟨[⟨"x", .integer⟩], .integer⟩ {}
    let text := "1 + x * -2 < 9) + 3".toList
    ∃ e q, Reader.expression scope.context (.ofPlace (.start text)) = .ok (e, .ofPlace q) ∧ q.rest = ") + 3".toList ∧
      e.DerivedFrom "1 + x * -2 < 9".toList ∧ ∀ v, v <+: text → ∀ e' : Expr, e'.DerivedFrom v → v.length ≤ 14 := by
  intro scope text
  have hbehind : (Reader.expression scope.context (.ofPlace (.start text))).toOption.map (fun result => result.2.rest) =
      some ") + 3".toList := by decide +kernel
  cases hread : Reader.expression scope.context (.ofPlace (.start text)) with
  | error reason =>
    rw [hread] at hbehind
    cases hbehind
  | ok result =>
    obtain ⟨e, behind⟩ := result
    obtain ⟨u, q, rfl, hu, hderived, -, hlongest⟩ := expression_longest hread
    rw [hread] at hbehind
    have hrest : q.rest = ") + 3".toList := Option.some.inj hbehind
    have htext : "1 + x * -2 < 9".toList ++ q.rest = u ++ q.rest := by
      rw [← hu.rest, hrest]
      decide +kernel
    obtain rfl := List.append_cancel_right htext
    exact ⟨e, q, rfl, hrest, hderived, hlongest⟩

end HostScript
