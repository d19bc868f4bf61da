import HostScript.Proofs.Reader.Trails
import HostScript.Proofs.Spelling
import HostScript.Proofs.Typing
import HostScript.Reader.Expression

/-! Every spelling of a typed expression is read as that expression.

Its words need no blanks between them; only what stands behind the last one matters (`Ahead`). Reading
a spelling comes down to reading the operators behind it (`Leads`): a left operand leads to the operator
with its right operand, a right operand to what follows the whole. So the proof follows the spelling,
and the budget of steps only has to cover three for each word. -/

namespace HostScript

open Grammar (ExprState)

/-! ### The words of an expression -/

theorem BinaryOp.isSign_symbol (op : BinaryOp) : isSign op.symbol := by
  rcases op with op | op <;> cases op <;> decide

theorem UnaryOp.isSign_symbol (op : UnaryOp) : isSign op.symbol := by
  cases op <;> decide

theorem Terminal.find?_eq_none {form : Terminal} {w : String} (h : form.pattern.match? w.toList = none) :
    form.find? w = none := by
  simp only [Terminal.find?, h]

section Words

variable {w : String}

theorem ne_of_not_isKeyword (h : isKeyword w = false) {k : String} (hk : isKeyword k) : w ≠ k := by
  rintro rfl
  rw [h] at hk
  cases hk

theorem expression_lexical (state : ExprState) : ∀ form ∈ Grammar.expression.matchers state, form.lexical := by
  cases state <;> decide

/-- The forms of the words with which an operand begins. -/
theorem cases_of_mem_pre {form : Terminal} (h : .terminal form ∈ Grammar.expression.matchers .pre) :
    (∃ op, form = .unary op) ∨ (∃ b, form = .boolean b) ∨ form = .sign .leftPar "(" ∨ form = .reference ∨ form = .integer := by
  simp only [Grammar.expression, UnaryOp.all, List.map_cons, List.map_nil, List.cons_append, List.nil_append, Function.comp,
    Grammar.leftPar, List.mem_cons, List.not_mem_nil, or_false, Matcher.terminal.injEq] at h
  rcases h with rfl | rfl | rfl | rfl | rfl | rfl | rfl | rfl <;> simp

/-- A form of a sign is not found in a name or a number. -/
theorem find?_sign {form : Terminal} {s : String} (hf : form.pattern = .sign s)
    (hs : s.toList.head?.all (!isNameChar ·) && !s.toList.isEmpty) {c : Char} {cs : List Char} (hw : w.toList = c :: cs)
    (hc : isNameChar c) : form.find? w = none :=
  Terminal.find?_eq_none (hf ▸ Pattern.match?_sign_of_nameChar hs hw hc)

theorem find?_reference (h : isName w) (hk : isKeyword w = false) :
    Terminal.reference.find? w = some (w.toList, .none) := by
  simp [Terminal.find?, Terminal.pattern, Pattern.match?_name h, Terminal.read, hk]

theorem find?_pre_name (h : isName w) (hk : isKeyword w = false) :
    Matcher.find? w (Grammar.expression.matchers .pre) = some (.name, w.toList, .none) := by
  obtain ⟨c, cs, hw, hc, -⟩ := cons_of_isName h
  have hc := isNameChar_of_isNameStart hc
  have hunary (op : UnaryOp) : (Terminal.unary op).find? w = none := by
    cases op <;> exact find?_sign rfl rfl hw hc
  have hboolean (b : Bool) : (Terminal.boolean b).find? w = none := by
    refine Terminal.find?_eq_none (Pattern.match?_keyword_of_name h ?_)
    cases b <;> exact ne_of_not_isKeyword hk rfl
  have hpar : (Terminal.sign .leftPar "(").find? w = none := find?_sign rfl rfl hw hc
  simp only [Grammar.expression, UnaryOp.all, List.map_cons, List.map_nil, List.cons_append, List.nil_append, Function.comp,
    Grammar.leftPar, Matcher.find?, hunary, hboolean, hpar, find?_reference h hk]
  rfl

theorem find?_pre_number (h : isNumber w) (hs : Decimal.value w.toList < integerLimit) :
    Matcher.find? w (Grammar.expression.matchers .pre) =
      some (.literal, w.toList, .constant (.integer (.ofNat (Decimal.value w.toList)))) := by
  obtain ⟨c, cs, hw, hc⟩ := cons_of_isNumber h
  have hc := isNameChar_of_isDigit hc
  have hunary (op : UnaryOp) : (Terminal.unary op).find? w = none := by
    cases op <;> exact find?_sign rfl rfl hw hc
  have hboolean (b : Bool) : (Terminal.boolean b).find? w = none := by
    refine Terminal.find?_eq_none (Pattern.match?_keyword_of_number h ?_)
    cases b <;> rfl
  have hpar : (Terminal.sign .leftPar "(").find? w = none := find?_sign rfl rfl hw hc
  have hname : Terminal.reference.find? w = none := Terminal.find?_eq_none (Pattern.match?_name_of_number h)
  have hnumber : Terminal.integer.find? w = some (w.toList, .constant (.integer (.ofNat (Decimal.value w.toList)))) := by
    simp only [Terminal.find?, Terminal.pattern, Pattern.match?_number h, Terminal.read, if_pos hs]
  simp only [Grammar.expression, UnaryOp.all, List.map_cons, List.map_nil, List.cons_append, List.nil_append, Function.comp,
    Grammar.leftPar, Matcher.find?, hunary, hboolean, hpar, hname, hnumber]
  rfl

theorem find?_pre_boolean (b : Bool) : Matcher.find? (Value.boolean b).text (Grammar.expression.matchers .pre) =
    some (.literal, (Value.boolean b).text.toList, .constant (.boolean b)) := by
  cases b <;> rfl

/-- A word that is followed by no word character is found as it is alone. -/
theorem find?_pre_append {tail : List Char} (hw : w.toList ≠ []) (ht : ∀ c ∈ tail.head?, isWordChar c = false) :
    Matcher.find? (String.ofList (w.toList ++ tail)) (Grammar.expression.matchers .pre) =
      Matcher.find? w (Grammar.expression.matchers .pre) := by
  refine Matcher.find?_append (fun h => absurd h hw) fun form hform c hc => ?_
  have hword := ht c hc
  have hname := not_isNameChar_of_not_isWordChar hword
  have hdigit : c.isDigit = false := by
    cases hd : c.isDigit with
    | false => rfl
    | true =>
      rw [isNameChar_of_isDigit hd] at hname
      cases hname
  rcases cases_of_mem_pre hform with ⟨op, rfl⟩ | ⟨b, rfl⟩ | rfl | rfl | rfl
  · cases op <;> rfl
  · have hkeyword : (Value.boolean b).text.toList.all isNameChar := by cases b <;> decide
    simp only [Terminal.pattern, Pattern.stops, hword, Bool.not_false, Bool.and_true, Bool.not_eq_true', List.contains_eq_mem,
      decide_eq_false_iff_not]
    intro hmem
    rw [List.all_eq_true.mp hkeyword c hmem] at hname
    cases hname
  · rfl
  · simp [Terminal.pattern, Pattern.stops, hname]
  · simp [Terminal.pattern, Pattern.stops, hdigit]

/-- A sign in front of an operand is found whatever follows. -/
theorem find?_pre_unary (op : UnaryOp) (tail : List Char) :
    Matcher.find? (String.ofList (op.symbol.toList ++ tail)) (Grammar.expression.matchers .pre) =
      some (.unaryOperator, op.symbol.toList, .unary op) := by
  cases op <;>
    simp [Grammar.expression, UnaryOp.all, Matcher.find?, Terminal.find?, Terminal.pattern, Terminal.read, Terminal.kind,
      Pattern.match?, UnaryOp.symbol]

theorem find?_pre_leftPar (tail : List Char) :
    Matcher.find? (String.ofList ("(".toList ++ tail)) (Grammar.expression.matchers .pre) =
      some (.leftPar, "(".toList, .none) := by
  simp [Grammar.expression, Grammar.leftPar, UnaryOp.all, Matcher.find?, Terminal.find?, Terminal.pattern, Terminal.read,
    Terminal.kind, Pattern.match?, UnaryOp.symbol, Value.text]

/-- A sign behind an operand is found if it is not the front of a longer one. -/
theorem find?_post_binary (op : BinaryOp) {tail : List Char} (ht : ∀ c ∈ tail.head?, c ≠ '=') :
    Matcher.find? (String.ofList (op.symbol.toList ++ tail)) (Grammar.expression.matchers .post) =
      some (.binaryOperator, op.symbol.toList, .binary op) := by
  have hne : ¬['='] <+: tail := by
    rintro ⟨more, rfl⟩
    exact ht '=' rfl rfl
  rcases op with op | op <;> cases op <;>
    simp [Grammar.expression, BinaryOp.all, Matcher.find?, Terminal.find?, Terminal.pattern, Terminal.read, Terminal.kind,
      Pattern.match?, BinaryOp.symbol, hne]

theorem find?_post_comma (tail : List Char) :
    Matcher.find? (String.ofList (",".toList ++ tail)) (Grammar.expression.matchers .post) =
      some (.comma, ",".toList, .none) := by
  simp [Grammar.expression, Grammar.comma, BinaryOp.all, Matcher.find?, Terminal.find?, Terminal.pattern, Terminal.read,
    Terminal.kind, Pattern.match?, BinaryOp.symbol]

theorem find?_post_rightPar (tail : List Char) :
    Matcher.find? (String.ofList (")".toList ++ tail)) (Grammar.expression.matchers .post) =
      some (.rightPar, ")".toList, .none) := by
  simp [Grammar.expression, Grammar.comma, Grammar.rightPar, BinaryOp.all, Matcher.find?, Terminal.find?, Terminal.pattern,
    Terminal.read, Terminal.kind, Pattern.match?, BinaryOp.symbol]

theorem find?_post_semicolon (tail : List Char) :
    Matcher.find? (String.ofList (";".toList ++ tail)) (Grammar.expression.matchers .post) = none := by
  simp [Grammar.expression, Grammar.comma, Grammar.rightPar, BinaryOp.all, Matcher.find?, Terminal.find?, Terminal.pattern,
    Pattern.match?, BinaryOp.symbol]

/-- A sign of a kind is ahead only if its first character is. -/
theorem not_ahead_of_head {state : ExprState} {kind : TokenKind} {c : Char} {text : List Char} (s : String)
    (hm : ∀ form ∈ Grammar.expression.matchers state, form.kind = kind → form = .terminal (.sign kind s))
    (hs : s.toList.head? = some c) (ht : (text.dropWhile isBlank).head? ≠ some c) :
    (Grammar.expression.ahead? state text).any ([kind].contains ·.1) = false := by
  cases hf : Grammar.expression.ahead? state text with
  | none => rfl
  | some found =>
    obtain ⟨other, w, payload⟩ := found
    simp only [Option.any_some, List.contains_eq_mem, List.mem_singleton, decide_eq_false_iff_not]
    rintro rfl
    obtain ⟨form, hmem, hkind, hmatch, -⟩ := Matcher.find?_eq_some hf
    cases hm _ hmem hkind
    obtain ⟨tail, htail⟩ := Pattern.append_of_match? hmatch
    rw [Pattern.eq_of_match?_sign hmatch, String.toList_ofList] at htail
    rw [htail, List.head?_append, hs] at ht
    exact ht rfl

/-- The words with which an expression can start. -/
def Starts (w : String) : Prop :=
  (isName w ∧ isKeyword w = false) ∨ isNumber w ∨ w ∈ ["true", "false", "(", "+", "-", "!"]

theorem Starts.head (h : Starts w) : ∃ d ds, w.toList = d :: ds ∧ isBlank d = false ∧ d ∉ ['=', ')'] := by
  have hnot {d : Char} (hd : isNameChar d) : isBlank d = false ∧ d ∉ ['=', ')'] := by
    refine ⟨not_isBlank_of_isNameChar hd, fun hmem => ?_⟩
    simp only [List.mem_cons, List.not_mem_nil, or_false] at hmem
    rcases hmem with rfl | rfl <;> cases hd
  rcases h with ⟨h, -⟩ | h | h
  · obtain ⟨d, ds, hw, hd, -⟩ := cons_of_isName h
    exact ⟨d, ds, hw, hnot (isNameChar_of_isNameStart hd)⟩
  · obtain ⟨d, ds, hw, hd⟩ := cons_of_isNumber h
    exact ⟨d, ds, hw, hnot (isNameChar_of_isDigit hd)⟩
  · simp only [List.mem_cons, List.not_mem_nil, or_false] at h
    rcases h with rfl | rfl | rfl | rfl | rfl | rfl <;> exact ⟨_, _, rfl, by decide⟩

end Words

theorem Expr.Spelled.starts {c : Nat} {e : Expr} {ws : List String} (h : e.Spelled c ws) :
    ∃ w rest, ws = w :: rest ∧ Starts w := by
  induction h with
  | number number => exact ⟨_, [], rfl, .inr (.inl number)⟩
  | boolean b => exact ⟨_, [], rfl, .inr (.inr (by cases b <;> decide))⟩
  | var named free => exact ⟨_, [], rfl, .inl ⟨named, free⟩⟩
  | unary op => exact ⟨_, _, rfl, .inr (.inr (by cases op <;> decide))⟩
  | binary op _ _ _ ih =>
    obtain ⟨w, rest, rfl, hw⟩ := ih
    exact ⟨w, _, rfl, hw⟩
  | call named free => exact ⟨_, _, rfl, .inl ⟨named, free⟩⟩
  | parenthesised => exact ⟨"(", _, rfl, .inr (.inr (by decide))⟩

/-- Behind blanks an expression begins with none of the signs `=` and `)`, nor do the blanks. -/
theorem Joined.head_of_starts {w : String} {ws : List String} {u : List Char} (h : Joined (w :: ws) u) (hw : Starts w)
    (tail : List Char) : (∀ d ∈ (u ++ tail).head?, d ≠ '=') ∧ ((u ++ tail).dropWhile isBlank).head? ≠ some ')' := by
  obtain ⟨d, ds, hl, hd, hne⟩ := hw.head
  obtain ⟨gap, text, rfl, blank, -⟩ := h.of_cons
  rw [List.append_assoc, List.append_assoc, hl]
  refine ⟨fun c hc => ?_, ?_⟩
  · cases gap with
    | nil =>
      cases hc
      rintro rfl
      simp at hne
    | cons b gap =>
      cases hc
      rintro rfl
      cases blank '=' List.mem_cons_self
  · rw [List.dropWhile_append_of_pos blank, List.cons_append, List.dropWhile_cons, hd]
    rintro ⟨⟩
    simp at hne

/-! ### What follows an expression -/

/-- The binary operator ahead of a text. -/
def operatorAhead (text : List Char) : Option BinaryOp :=
  (Grammar.expression.ahead? .post text).bind fun (kind, _, payload) =>
    if kind = .binaryOperator then payload.binary? else none

theorem operatorAhead_symbol (op : BinaryOp) {gap tail : List Char} (hg : ∀ d ∈ gap, isBlank d)
    (ht : ∀ d ∈ tail.head?, d ≠ '=') : operatorAhead (gap ++ op.symbol.toList ++ tail) = some op := by
  rw [operatorAhead, Grammar.ahead?_word hg op.solid_symbol, find?_post_binary op ht]
  rfl

/-- A text that ends an expression whose operators are below the ceiling: it does not go on with the last
    word, opens no call, and has no operator ahead that is read into the expression. -/
structure Ahead (c : Nat) (text : List Char) : Prop where
  ends : ∀ d ∈ text.head?, isWordChar d = false
  uncalled : (Grammar.expression.ahead? .pre text).any ([TokenKind.leftPar].contains ·.1) = false
  operator : ∀ op ∈ operatorAhead text, c ≤ op.priority + 1

namespace Ahead

variable {c : Nat} {gap : List Char}

theorem mono {c' : Nat} {text : List Char} (h : Ahead c text) (hc : c' ≤ c) : Ahead c' text :=
  ⟨h.ends, h.uncalled, fun op hop => Nat.le_trans hc (h.operator op hop)⟩

theorem one {text : List Char} (h : Ahead c text) : Ahead 1 text :=
  ⟨h.ends, h.uncalled, fun _ _ => Nat.le_add_left 1 _⟩

theorem nil (c : Nat) : Ahead c [] where
  ends _ h := by cases h
  uncalled := rfl
  operator _ h := by cases h

/-- A sign, or a blank before it, goes on with no word. -/
theorem ends_sign {w : String} {d : Char} (hg : ∀ d ∈ gap, isBlank d) (hw : w.toList.head? = some d)
    (hd : isWordChar d = false) (tail : List Char) : ∀ c ∈ (gap ++ w.toList ++ tail).head?, isWordChar c = false := by
  intro c hc
  cases gap with
  | nil =>
    rw [List.nil_append, List.head?_append, hw] at hc
    cases hc
    exact hd
  | cons b gap =>
    cases hc
    exact not_isWordChar_of_isBlank (hg _ List.mem_cons_self)

theorem sign {w : String} (hg : ∀ d ∈ gap, isBlank d) (hw : Solid w)
    (hhead : w.toList.head?.all fun d => !isWordChar d && d != '(') (tail : List Char)
    (hop : ∀ op ∈ operatorAhead (gap ++ w.toList ++ tail), c ≤ op.priority + 1) : Ahead c (gap ++ w.toList ++ tail) := by
  obtain ⟨d, ds, hl⟩ := List.exists_cons_of_ne_nil hw.1
  have hd : isBlank d = false := hw.2 d (hl ▸ List.mem_cons_self)
  simp only [hl, List.head?_cons, Option.all_some, Bool.and_eq_true, Bool.not_eq_true', bne_iff_ne] at hhead
  refine ⟨ends_sign hg (hl ▸ rfl) hhead.1 tail, not_ahead_of_head "(" (by decide) rfl ?_, hop⟩
  rw [List.append_assoc, List.dropWhile_append_of_pos hg, hl, List.cons_append, List.dropWhile_cons, hd]
  rintro ⟨⟩
  exact hhead.2 rfl

theorem closing {w : String} (h : w ∈ [";", ")", ","]) (hg : ∀ d ∈ gap, isBlank d) (tail : List Char) :
    Ahead c (gap ++ w.toList ++ tail) := by
  have hw : Solid w := by
    simp only [List.mem_cons, List.not_mem_nil, or_false] at h
    rcases h with rfl | rfl | rfl <;> decide
  have hnone : operatorAhead (gap ++ w.toList ++ tail) = none := by
    rw [operatorAhead, Grammar.ahead?_word hg hw]
    simp only [List.mem_cons, List.not_mem_nil, or_false] at h
    rcases h with rfl | rfl | rfl
    · rw [find?_post_semicolon]
      rfl
    · rw [find?_post_rightPar]
      rfl
    · rw [find?_post_comma]
      rfl
  refine .sign hg hw ?_ tail fun op hop => ?_
  · simp only [List.mem_cons, List.not_mem_nil, or_false] at h
    rcases h with rfl | rfl | rfl <;> rfl
  · rw [hnone] at hop
    cases hop

theorem symbol (op : BinaryOp) (hg : ∀ d ∈ gap, isBlank d) {tail : List Char} (ht : ∀ d ∈ tail.head?, d ≠ '=') :
    Ahead (op.priority + 1) (gap ++ op.symbol.toList ++ tail) := by
  refine .sign hg op.solid_symbol ?_ tail fun other hother => ?_
  · rcases op with op | op <;> cases op <;> rfl
  · rw [operatorAhead_symbol op hg ht] at hother
    cases hother
    exact Nat.le_refl _

end Ahead

namespace Reader

variable {ctx : Context} {p q : Place} {u gap tail : List Char}

/-- The next word of an expression. -/
theorem reads_word (ctx : Context) (state : ExprState) (kinds : List TokenKind) (next : ExprState) {w : String}
    {kind : TokenKind} {payload : Payload} (hp : p.rest = gap ++ w.toList ++ tail) (hg : ∀ c ∈ gap, isBlank c) (hw : Solid w)
    (hf : Matcher.find? (String.ofList (w.toList ++ tail)) (Grammar.expression.matchers state) =
      some (kind, w.toList, payload)) (hk : kinds.contains kind) :
    ∃ position q, Reads ctx Grammar.expression (accept ctx kinds next) state p (some ⟨kind, w, position, payload⟩) next q ∧
      p.Spans (gap ++ w.toList) q := by
  have hstate : state ≠ Grammar.expression.stop := by
    rintro rfl
    cases hf
  exact Reads.joined_word ctx Grammar.expression state kinds next hp hg hw hstate (expression_lexical state) hf hk

theorem reads_nextBinary (ctx : Context) (p : Place) :
    Reads ctx Grammar.expression (nextBinary ctx) .post p (operatorAhead p.rest) .post p := by
  refine (Reads.peek_text ctx p (by decide) (expression_lexical .post)).bind ?_
  cases hf : Grammar.expression.ahead? .post p.rest with
  | none =>
    simp only [operatorAhead, hf]
    exact .pure none
  | some found =>
    simp only [operatorAhead, hf]
    exact .pure _

/-- Where no operator below the ceiling comes next, an expression is complete. -/
theorem reads_operators_done {c : Nat} (hf : Ahead (c + 1) p.rest) (e : Expr) {n : Nat} (hn : 1 ≤ n) :
    Reads ctx Grammar.expression (operators ctx n c e) .post p e .post p := by
  obtain ⟨n, rfl⟩ := Nat.exists_eq_add_of_le' hn
  unfold operators
  refine (reads_nextBinary ctx p).bind ?_
  cases hop : operatorAhead p.rest with
  | none => exact .pure e
  | some op =>
    have hle : c ≤ op.priority := Nat.le_of_succ_le_succ (hf.operator op hop)
    simp only [hle, if_true]
    exact .pure e

/-- Reading an expression of the given number of words at `p` comes down to reading the operators that
    stand at `q`, behind it. -/
def Leads (ctx : Context) (e : Expr) (c₀ size : Nat) (p q : Place) : Prop :=
  ∀ c, c₀ ≤ c → ∀ t r q', (∀ n, t ≤ n → Reads ctx Grammar.expression (operators ctx n c e) .post q r .post q') →
    ∀ n, t + 3 * size ≤ n → Reads ctx Grammar.expression (subexpression ctx n c) .pre p r .post q'

/-- An operand is read at once. -/
theorem leads_of_operand {e : Expr} {c₀ size : Nat} (hsize : 1 ≤ size)
    (h : ∀ n, 3 * size ≤ n + 1 → Reads ctx Grammar.expression (operand ctx n) .pre p e .post q) :
    Leads ctx e c₀ size p q := by
  intro c _ t r q' hr n hn
  obtain ⟨n, rfl⟩ := Nat.exists_eq_add_of_le' (show 1 ≤ n by omega)
  unfold subexpression
  exact (h n (by omega)).bind (hr n (by omega))

/-- Where no operator below the ceiling follows, the expression is all that is read. -/
theorem Leads.reads {e : Expr} {c size : Nat} (h : Leads ctx e c size p q) (hf : Ahead (c + 1) q.rest) {n : Nat}
    (hn : 1 + 3 * size ≤ n) : Reads ctx Grammar.expression (subexpression ctx n c) .pre p e .post q :=
  h c (Nat.le_refl c) 1 e q (fun _ hm => reads_operators_done hf e hm) n hn

/-! ### Operands -/

/-- The word is of another kind than an operand may start with here. -/
theorem reads_not {w : String} {kind : TokenKind} {text : List Char} {payload : Payload}
    (hp : p.rest = gap ++ w.toList ++ tail) (hg : ∀ c ∈ gap, isBlank c) (hw : Solid w)
    (hf : Matcher.find? (String.ofList (w.toList ++ tail)) (Grammar.expression.matchers .pre) = some (kind, text, payload))
    {kinds : List TokenKind} (hk : kinds.contains kind = false) (next : ExprState) :
    Reads ctx Grammar.expression (accept ctx kinds next) .pre p none .pre p := by
  refine .none_ahead (by decide) (expression_lexical .pre) ?_
  rw [hp, Grammar.ahead?_word hg hw, hf]
  exact hk

theorem reads_literal {w : String} {value : Value} (hp : p.rest = gap ++ w.toList ++ tail) (hg : ∀ c ∈ gap, isBlank c)
    (hw : Solid w) (ht : ∀ c ∈ tail.head?, isWordChar c = false)
    (hf : Matcher.find? w (Grammar.expression.matchers .pre) = some (.literal, w.toList, .constant value)) :
    ∃ q, p.Spans (gap ++ w.toList) q ∧
      ∀ n, 1 ≤ n → Reads ctx Grammar.expression (operand ctx n) .pre p (.const value) .post q := by
  rw [← find?_pre_append hw.1 ht] at hf
  obtain ⟨position, q, ha, hq⟩ := reads_word ctx .pre [.leftPar, .name, .unaryOperator, .literal] .post hp hg hw hf rfl
  refine ⟨q, hq, fun n hn => ?_⟩
  obtain ⟨n, rfl⟩ := Nat.exists_eq_add_of_le' hn
  unfold operand
  refine (reads_not hp hg hw hf rfl .pre).bind ((reads_not hp hg hw hf rfl .pre).bind
    ((reads_not hp hg hw hf rfl .pre).bind ?_))
  exact ha.expect.bind (.pure _)

theorem reads_variable {target : Variable} {c : Nat} (hp : p.rest = gap ++ target.name.toList ++ tail)
    (hg : ∀ c ∈ gap, isBlank c) (named : isName target.name) (free : isKeyword target.name = false)
    (found : ctx.scope.variableNamed? target.name = some target) (ht : Ahead c tail) :
    ∃ q, p.Spans (gap ++ target.name.toList) q ∧
      ∀ n, 1 ≤ n → Reads ctx Grammar.expression (operand ctx n) .pre p (.var target) .post q := by
  have hw := solid_of_isName named
  have hf := (find?_pre_append hw.1 ht.ends).trans (find?_pre_name named free)
  obtain ⟨position, q, ha, hq⟩ := reads_word ctx .pre [.name] .pre hp hg hw hf rfl
  refine ⟨q, hq, fun n hn => ?_⟩
  obtain ⟨n, rfl⟩ := Nat.exists_eq_add_of_le' hn
  have huncalled := ht.uncalled
  rw [← hq.rest_eq hp] at huncalled
  unfold operand
  refine (reads_not hp hg hw hf rfl .pre).bind (ha.bind ?_)
  refine (Reads.none_ahead (by decide) (expression_lexical .pre) huncalled).bind ?_
  exact (Reads.setState ExprState.post).bind ((Reads.resolveVariable found).bind (.pure _))

theorem intercalate_words (arg arg' : Expr × List String) (args : List (Expr × List String)) :
    [","].intercalate ((arg :: arg' :: args).map Prod.snd) =
      arg.2 ++ "," :: [","].intercalate ((arg' :: args).map Prod.snd) := by
  rw [List.map_cons, List.map_cons, List.intercalate_cons_cons, List.append_assoc]
  rfl

/-- Where arguments stand, no parenthesis closes. -/
theorem not_ahead_of_args {arg : Expr × List String} {args : List (Expr × List String)}
    (hspelled : arg.1.Spelled BinaryOp.loosest arg.2)
    (h : Joined ([","].intercalate ((arg :: args).map Prod.snd) ++ [")"]) u) (tail : List Char) :
    (Grammar.expression.ahead? .post (u ++ tail)).any ([TokenKind.rightPar].contains ·.1) = false := by
  obtain ⟨w, rest, hw, hstarts⟩ := hspelled.starts
  obtain ⟨rest', hrest'⟩ : ∃ rest', [","].intercalate ((arg :: args).map Prod.snd) ++ [")"] = w :: rest' := by
    rw [List.map_cons, hw]
    cases args with
    | nil => exact ⟨rest ++ [")"], by simp⟩
    | cons arg' args => exact ⟨_, by rw [List.map_cons, List.intercalate_cons_cons, List.cons_append]; rfl⟩
  rw [hrest'] at h
  exact not_ahead_of_head ")" (by decide) rfl (h.head_of_starts hstarts tail).2

/-- What reading the arguments of a call asks of each of them. -/
def ReadsArg (ctx : Context) (arg : Expr × List String) : Prop :=
  ∀ {u tail : List Char} {p : Place}, Joined arg.2 u → Ahead (BinaryOp.loosest + 1) tail → p.rest = u ++ tail →
    ∃ q, p.Spans u q ∧ Leads ctx arg.1 BinaryOp.loosest arg.2.length p q

theorem reads_moreArgs : ∀ {args : List (Expr × List String)} {u tail : List Char} {p : Place}, args ≠ [] →
    (∀ arg ∈ args, ReadsArg ctx arg) → Joined ([","].intercalate (args.map Prod.snd) ++ [")"]) u → p.rest = u ++ tail →
    ∃ q, p.Spans u q ∧ ∀ n, 3 * ([","].intercalate (args.map Prod.snd)).length + 2 ≤ n →
      Reads ctx Grammar.expression (moreArgs ctx n) .pre p (args.map Prod.fst) .post q
  | [], _, _, p, hne, _, _, _ => absurd rfl hne
  | [arg], _, tail, p, _, hargs, h, hp => by
    simp only [List.map_cons, List.map_nil, List.intercalate_singleton] at h ⊢
    obtain ⟨u₁, u₂, rfl, h₁, h₂⟩ := h.split
    obtain ⟨gap, rfl, hg⟩ := h₂.of_singleton
    rw [List.append_assoc] at hp
    obtain ⟨q₁, hpq₁, hlead⟩ := hargs arg List.mem_cons_self h₁ (Ahead.closing (by decide) hg tail) hp
    have hq₁ := hpq₁.rest_eq hp
    obtain ⟨position, q, ha, hq₁q⟩ := reads_word ctx .post [.rightPar] .post hq₁ hg (by decide)
      (find?_post_rightPar tail) rfl
    refine ⟨q, hpq₁.trans hq₁q, fun n hn => ?_⟩
    obtain ⟨n, rfl⟩ := Nat.exists_eq_add_of_le' (show 1 ≤ n by omega)
    unfold moreArgs
    refine (hlead.reads (hq₁ ▸ .closing (by decide) hg tail) (by omega)).bind ?_
    exact ha.bind (.pure _)
  | arg :: arg' :: args, _, tail, p, _, hargs, h, hp => by
    rw [intercalate_words] at h ⊢
    rw [List.append_assoc, List.cons_append] at h
    obtain ⟨u₁, u₂, rfl, h₁, h₂⟩ := h.split
    obtain ⟨gap, u₃, rfl, hg, -, h₃⟩ := h₂.of_cons
    rw [List.append_assoc, List.append_assoc _ u₃] at hp
    obtain ⟨q₁, hpq₁, hlead⟩ := hargs arg List.mem_cons_self h₁ (Ahead.closing (by decide) hg _) hp
    have hq₁ := hpq₁.rest_eq hp
    obtain ⟨position, q₂, ha, hq₁q₂⟩ := reads_word ctx .post [.comma] .pre hq₁ hg (by decide) (find?_post_comma _) rfl
    obtain ⟨q, hq₂q, hmore⟩ := reads_moreArgs (List.cons_ne_nil arg' args)
      (fun a ha => hargs a (List.mem_cons_of_mem arg ha)) h₃ (hq₁q₂.rest_eq hq₁)
    refine ⟨q, hpq₁.trans (hq₁q₂.trans hq₂q), fun n hn => ?_⟩
    rw [List.length_append, List.length_cons] at hn
    obtain ⟨n, rfl⟩ := Nat.exists_eq_add_of_le' (show 1 ≤ n by omega)
    have hcomma : (Grammar.expression.ahead? .post q₁.rest).any ([TokenKind.rightPar].contains ·.1) = false := by
      rw [hq₁, Grammar.ahead?_word hg (by decide), find?_post_comma]
      rfl
    unfold moreArgs
    refine (hlead.reads (hq₁ ▸ .closing (by decide) hg _) (by omega)).bind ?_
    refine (Reads.none_ahead (by decide) (expression_lexical .post) hcomma).bind ?_
    exact ha.expect.bind ((hmore n (by omega)).bind (.pure _))

theorem reads_callArgs {args : List (Expr × List String)} (hargs : ∀ arg ∈ args, ReadsArg ctx arg)
    (hspelled : ∀ arg ∈ args, Expr.Spelled BinaryOp.loosest arg.1 arg.2)
    (h : Joined ([","].intercalate (args.map Prod.snd) ++ [")"]) u) (hp : p.rest = u ++ tail) :
    ∃ q, p.Spans u q ∧ ∀ n, 3 * ([","].intercalate (args.map Prod.snd)).length + 3 ≤ n →
      Reads ctx Grammar.expression (callArgs ctx n) .post p (args.map Prod.fst) .post q := by
  cases args with
  | nil =>
    obtain ⟨gap, rfl, hg⟩ := h.of_singleton
    obtain ⟨position, q, ha, hpq⟩ := reads_word ctx .post [.rightPar] .post hp hg (by decide)
      (find?_post_rightPar tail) rfl
    refine ⟨q, hpq, fun n hn => ?_⟩
    obtain ⟨n, rfl⟩ := Nat.exists_eq_add_of_le' (show 1 ≤ n by omega)
    unfold callArgs
    exact ha.bind (.pure [])
  | cons arg args =>
    obtain ⟨q, hpq, hmore⟩ := reads_moreArgs (List.cons_ne_nil arg args) hargs h hp
    have hopen := not_ahead_of_args (hspelled arg List.mem_cons_self) h tail
    rw [← hp] at hopen
    refine ⟨q, hpq, fun n hn => ?_⟩
    obtain ⟨n, rfl⟩ := Nat.exists_eq_add_of_le' (show 1 ≤ n by omega)
    unfold callArgs
    refine (Reads.none_ahead (by decide) (expression_lexical .post) hopen).bind ?_
    exact (Reads.setState ExprState.pre).bind (hmore n (by omega))

end Reader

namespace Expr

theorem typed_binary {scope : Scope} {op : BinaryOp} {left right : Expr} (h : (binary op left right).Typed scope) :
    left.ty = op.operandTy ∧ right.ty = op.operandTy ∧ left.Typed scope ∧ right.Typed scope := by
  cases op with
  | strict op =>
    cases h with
    | strict leftTy rightTy leftTyped rightTyped => exact ⟨leftTy, rightTy, leftTyped, rightTyped⟩
  | logical op =>
    cases h with
    | logical leftTy rightTy leftTyped rightTyped => exact ⟨leftTy, rightTy, leftTyped, rightTyped⟩

theorem mkBinary_of_ty {op : BinaryOp} {left right : Expr} (hl : left.ty = op.operandTy) (hr : right.ty = op.operandTy) :
    mkBinary op left right = .ok (binary op left right) := by
  unfold mkBinary
  simp only [check_of_ty hl, check_of_ty hr]
  cases op <;> rfl

end Expr

open Reader in
/-- Every spelling of a typed expression is read as that expression. -/
theorem Expr.Spelled.leads {ctx : Context} {c : Nat} {e : Expr} {ws : List String} (h : e.Spelled c ws)
    (ht : e.Typed ctx.scope) : ∀ {u tail : List Char} {p : Place}, Joined ws u → Ahead c tail → p.rest = u ++ tail →
      ∃ q, p.Spans u q ∧ Leads ctx e c ws.length p q := by
  induction h with
  | @number c w number small =>
    intro u tail p hu hf hp
    obtain ⟨gap, rfl, hg⟩ := hu.of_singleton
    obtain ⟨q, hq, ho⟩ := reads_literal hp hg (solid_of_isNumber number) hf.ends (find?_pre_number number small)
    exact ⟨q, hq, leads_of_operand (Nat.le_refl 1) fun n hn => ho n (by simp at hn; omega)⟩
  | @boolean c b =>
    intro u tail p hu hf hp
    obtain ⟨gap, rfl, hg⟩ := hu.of_singleton
    obtain ⟨q, hq, ho⟩ := reads_literal hp hg (by cases b <;> decide) hf.ends (find?_pre_boolean b)
    exact ⟨q, hq, leads_of_operand (Nat.le_refl 1) fun n hn => ho n (by simp at hn; omega)⟩
  | @var c target named free =>
    intro u tail p hu hf hp
    obtain ⟨gap, rfl, hg⟩ := hu.of_singleton
    cases ht with
    | var found =>
      obtain ⟨q, hq, ho⟩ := reads_variable hp hg named free found hf
      exact ⟨q, hq, leads_of_operand (Nat.le_refl 1) fun n hn => ho n (by simp at hn; omega)⟩
  | @unary c e ws op inner ih =>
    intro u tail p hu hf hp
    obtain ⟨gap, v, rfl, hg, -, hv⟩ := hu.of_cons
    rw [List.append_assoc _ v] at hp
    cases ht with
    | unary ty typed =>
      have hfind := find?_pre_unary op (v ++ tail)
      obtain ⟨position, q₁, ha, hpq₁⟩ := reads_word ctx .pre [.unaryOperator] .pre hp hg op.solid_symbol hfind rfl
      obtain ⟨q, hq₁q, hlead⟩ := ih typed hv (hf.mono (Nat.zero_le c)) (hpq₁.rest_eq hp)
      refine ⟨q, hpq₁.trans hq₁q, leads_of_operand (by simp) fun n hn => ?_⟩
      simp only [List.length_cons] at hn
      obtain ⟨n, rfl⟩ := Nat.exists_eq_add_of_le' (show 1 ≤ n by omega)
      have hq := hq₁q.rest_eq (hpq₁.rest_eq hp)
      unfold operand
      refine (reads_not hp hg op.solid_symbol hfind rfl .pre).bind
        ((reads_not hp hg op.solid_symbol hfind rfl .pre).bind (ha.bind ?_))
      refine (Reads.pure op).bind ((hlead.reads (hq ▸ hf.one) (by omega)).bind ?_)
      exact .locate (mkUnary_of_ty ty) position
  | @binary c left right ls rs op below first second ihl ihr =>
    intro u tail p hu hf hp
    obtain ⟨leftTy, rightTy, leftTyped, rightTyped⟩ := typed_binary ht
    obtain ⟨u₁, u₂, rfl, h₁, h₂⟩ := hu.split
    obtain ⟨gap, v, rfl, hg, -, hv⟩ := h₂.of_cons
    rw [List.append_assoc, List.append_assoc _ v] at hp
    obtain ⟨w, rest, rfl, hstarts⟩ := second.starts
    have hv' := (hv.head_of_starts hstarts tail).1
    obtain ⟨q₁, hpq₁, hleft⟩ := ihl leftTyped h₁ (.symbol op hg hv') hp
    have hq₁ := hpq₁.rest_eq hp
    obtain ⟨position, q₂, ha, hq₁q₂⟩ := reads_word ctx .post [.binaryOperator] .pre hq₁ hg op.solid_symbol
      (find?_post_binary op hv') rfl
    obtain ⟨q, hq₂q, hright⟩ := ihr rightTyped hv (hf.mono (by omega)) (hq₁q₂.rest_eq hq₁)
    refine ⟨q, hpq₁.trans (hq₁q₂.trans hq₂q), fun c' hc t r q' hr n hn => ?_⟩
    rw [List.length_append, List.length_cons] at hn
    -- the operators behind the left operand: this one with its right operand, then those behind the whole
    refine hleft c' (by omega) (t + 3 * (w :: rest).length + 2) r q' (fun m hm => ?_) n (by omega)
    obtain ⟨m, rfl⟩ := Nat.exists_eq_add_of_le' (show 1 ≤ m by omega)
    have hop := reads_nextBinary ctx q₁
    rw [hq₁, operatorAhead_symbol op hg hv'] at hop
    have hq := hq₂q.rest_eq (hq₁q₂.rest_eq hq₁)
    unfold operators
    refine hop.bind ?_
    have hbelow : ¬c' ≤ op.priority := by omega
    simp only [hbelow, if_false]
    refine ha.bind ((hright.reads (hq ▸ hf.mono (by omega)) (by omega)).bind ?_)
    exact (Reads.locate (mkBinary_of_ty leftTy rightTy) position).bind (hr m (by omega))
  | @call c name function returns args named free spelled ih =>
    intro u tail p hu hf hp
    cases ht with
    | @call _ function _ found types typed =>
      have hargs : ∀ arg ∈ args, ReadsArg ctx arg := fun arg harg u tail p hu hf hp =>
        ih arg harg (typed arg.1 (List.mem_map_of_mem harg)) hu (hf.mono (Nat.le_succ _)) hp
      obtain ⟨gap, u₁, rfl, hg, -, h₁⟩ := hu.of_cons
      obtain ⟨gap', u₂, rfl, hg', -, h₂⟩ := h₁.of_cons
      rw [List.append_assoc _ _ tail, List.append_assoc _ u₂] at hp
      have hw := solid_of_isName named
      have hends := Ahead.ends_sign hg' (show "(".toList.head? = some '(' from rfl) (by decide) (u₂ ++ tail)
      have hfind := (find?_pre_append hw.1 hends).trans (find?_pre_name named free)
      obtain ⟨position, q₁, ha, hpq₁⟩ := reads_word ctx .pre [.name] .pre hp hg hw hfind rfl
      have hq₁ := hpq₁.rest_eq hp
      obtain ⟨_, q₂, hb, hq₁q₂⟩ := reads_word ctx .pre [.leftPar] .post hq₁ hg' (by decide) (find?_pre_leftPar _) rfl
      obtain ⟨q, hq₂q, hcall⟩ := reads_callArgs hargs spelled h₂ (hq₁q₂.rest_eq hq₁)
      refine ⟨q, hpq₁.trans (hq₁q₂.trans hq₂q), leads_of_operand (by simp) fun n hn => ?_⟩
      simp only [List.length_append, List.length_cons, List.length_nil] at hn
      obtain ⟨n, rfl⟩ := Nat.exists_eq_add_of_le' (show 1 ≤ n by omega)
      unfold operand
      refine (reads_not hp hg hw hfind rfl .pre).bind (ha.bind (hb.bind ((hcall n (by omega)).bind ?_)))
      exact (Reads.resolveFunction found).bind (.locate (mkCall_of_types types) position)
  | @parenthesised c e ws inner ih =>
    intro u tail p hu hf hp
    obtain ⟨gap, u₁, rfl, hg, -, h₁⟩ := hu.of_cons
    obtain ⟨u₂, u₃, rfl, h₂, h₃⟩ := h₁.split
    obtain ⟨gap', rfl, hg'⟩ := h₃.of_singleton
    rw [List.append_assoc _ _ tail, List.append_assoc u₂] at hp
    obtain ⟨position, q₁, ha, hpq₁⟩ := reads_word ctx .pre [.leftPar] .pre hp hg (by decide) (find?_pre_leftPar _) rfl
    have hq₁ := hpq₁.rest_eq hp
    obtain ⟨q₂, hq₁q₂, hlead⟩ := ih ht h₂ (.closing (by decide) hg' tail) hq₁
    have hq₂ := hq₁q₂.rest_eq hq₁
    obtain ⟨position', q, hb, hq₂q⟩ := reads_word ctx .post [.rightPar] .post hq₂ hg' (by decide)
      (find?_post_rightPar _) rfl
    refine ⟨q, hpq₁.trans (hq₁q₂.trans hq₂q), leads_of_operand (by simp) fun n hn => ?_⟩
    simp only [List.length_append, List.length_cons, List.length_nil] at hn
    obtain ⟨n, rfl⟩ := Nat.exists_eq_add_of_le' (show 1 ≤ n by omega)
    unfold operand
    refine ha.bind ((hlead.reads (hq₂ ▸ .closing (by decide) hg' tail) (by omega)).bind ?_)
    exact hb.expect.bind (.pure e)

/-- A whole expression, up to a text that ends it. -/
theorem Expr.Spelled.expression_joined {e : Expr} {ws : List String} {u tail : List Char} {p : Place}
    (h : e.Spelled BinaryOp.loosest ws) (ctx : Context) (ht : e.Typed ctx.scope) (hu : Joined ws u)
    (hf : Ahead (BinaryOp.loosest + 1) tail) (hp : p.rest = u ++ tail) :
    ∃ q, p.Spans u q ∧ Reader.expression ctx (.ofPlace p) = .ok (e, .ofPlace q) := by
  obtain ⟨q, hpq, hlead⟩ := h.leads ht hu (hf.mono (Nat.le_succ _)) hp
  have hlen := hu.length_le fun w hw => (h.solid w hw).1
  have hbudget : 1 + 3 * ws.length ≤ Reader.budget (.ofPlace p) := by
    change 1 + 3 * ws.length ≤ 4 * p.rest.length + 4
    rw [hp, List.length_append]
    omega
  exact ⟨q, hpq, Reader.Reads.run ctx ExprState.post (hlead.reads (hpq.rest_eq hp ▸ hf) hbudget)⟩

end HostScript
