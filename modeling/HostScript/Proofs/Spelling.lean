import HostScript.Proofs.Reader.Layout
import HostScript.Source

/-! How programs are written.

`Spelled` is the grammar of the language over words: an expression stands under a ceiling, below which
the priorities of the operators on its outside lie, and may always be put in parentheses. A text is a
spelling with blanks between the words. `words` is the spelling with the fewest parentheses. -/

namespace HostScript
namespace Expr

/-- A binary operator on two operands, strict or not. -/
def binary : BinaryOp → Expr → Expr → Expr
  | .strict op, left, right => .strict op left right
  | .logical op, left, right => .logical op left right

/-- The spellings of an expression under a ceiling. -/
inductive Spelled : Nat → Expr → List String → Prop
  | number {c : Nat} {w : String} (number : isNumber w) (small : Decimal.value w.toList < integerLimit) :
      Spelled c (.const (.integer (.ofNat (Decimal.value w.toList)))) [w]
  | boolean {c : Nat} (b : Bool) : Spelled c (.const (.boolean b)) [(Value.boolean b).text]
  | var {c : Nat} {target : Variable} (named : isName target.name) (free : isKeyword target.name = false) :
      Spelled c (.var target) [target.name]
  | unary {c : Nat} {e : Expr} {ws : List String} (op : UnaryOp) (inner : Spelled 0 e ws) :
      Spelled c (.unary op e) (op.symbol :: ws)
  | binary {c : Nat} {left right : Expr} {ls rs : List String} (op : BinaryOp) (below : op.priority < c)
      (first : Spelled (op.priority + 1) left ls) (second : Spelled op.priority right rs) :
      Spelled c (binary op left right) (ls ++ op.symbol :: rs)
  | call {c : Nat} {name : String} {function : FunctionHandle} {returns : Ty} {args : List (Expr × List String)}
      (named : isName name) (free : isKeyword name = false)
      (spelled : ∀ arg ∈ args, Spelled BinaryOp.loosest arg.1 arg.2) :
      Spelled c (.call name function returns (args.map Prod.fst))
        (name :: "(" :: [","].intercalate (args.map Prod.snd) ++ [")"])
  | parenthesised {c : Nat} {e : Expr} {ws : List String} (inner : Spelled BinaryOp.loosest e ws) :
      Spelled c e ("(" :: ws ++ [")"])

end Expr

namespace Stmt

/-- The statement ends with an `if` that has no `else`. -/
def dangling : Stmt → Bool
  | branch _ _ _ none => true
  | branch _ _ _ (some elseBranch) => elseBranch.dangling
  | _ => false

/-- The spellings of a statement. An `else` would be read as that of an `if` that stands open before it. -/
inductive Spelled : Stmt → List String → Prop
  | assign {target : Variable} {value : Expr} {ws : List String} (named : isName target.name)
      (free : isKeyword target.name = false) (spelled : value.Spelled BinaryOp.loosest ws) :
      Spelled (.assign target value) (target.name :: "=" :: ws ++ [";"])
  | ret {value : Expr} {ws : List String} (spelled : value.Spelled BinaryOp.loosest ws) :
      Spelled (.ret value) ("return" :: ws ++ [";"])
  | expr {value : Expr} {ws : List String} (spelled : value.Spelled BinaryOp.loosest ws) :
      Spelled (.expr value) (ws ++ [";"])
  | empty : Spelled .empty [";"]
  | block {body : List (Stmt × List String)} (spelled : ∀ part ∈ body, Spelled part.1 part.2) :
      Spelled (.block (body.map Prod.fst)) ("\x7b" :: (body.map Prod.snd).flatten ++ ["\x7d"])
  | branch {condition : Expr} {decided : Option Bool} {thenBranch : Stmt} {cs ts : List String}
      (spelled : condition.Spelled BinaryOp.loosest cs) (first : Spelled thenBranch ts) :
      Spelled (.branch condition decided thenBranch none) ("if" :: "(" :: cs ++ ")" :: ts)
  | branchElse {condition : Expr} {decided : Option Bool} {thenBranch elseBranch : Stmt} {cs ts es : List String}
      (spelled : condition.Spelled BinaryOp.loosest cs) (first : Spelled thenBranch ts)
      (closed : thenBranch.dangling = false) (second : Spelled elseBranch es) :
      Spelled (.branch condition decided thenBranch (some elseBranch))
        ("if" :: "(" :: cs ++ ")" :: ts ++ "else" :: es)

end Stmt

namespace Program

/-- The words of the declaration, if there are locals. -/
def declarationWords (names : List String) : List String :=
  if names.isEmpty then [] else (Stmt.declare names).words

/-- The spellings of a program. -/
inductive Spelled : Program → List String → Prop
  | mk {locals : List String} {body : List (Stmt × List String)} (names : ∀ name ∈ locals, isName name ∧ isKeyword name = false)
      (spelled : ∀ part ∈ body, Stmt.Spelled part.1 part.2) :
      Spelled ⟨locals, body.map Prod.fst⟩ (declarationWords locals ++ (body.map Prod.snd).flatten)

end Program

/-! ### Spellings have solid words -/

theorem BinaryOp.solid_symbol (op : BinaryOp) : Solid op.symbol := by
  rcases op with op | op <;> cases op <;> decide

theorem UnaryOp.solid_symbol (op : UnaryOp) : Solid op.symbol := by
  cases op <;> decide

/-- The signs and keywords of the language. -/
theorem solid_fixed {w : String} (h : w ∈ ["(", ")", ",", ";", "=", "\x7b", "\x7d", "if", "else", "return", "var",
    "true", "false"]) : Solid w := by
  simp only [List.mem_cons, List.not_mem_nil, or_false] at h
  rcases h with rfl | rfl | rfl | rfl | rfl | rfl | rfl | rfl | rfl | rfl | rfl | rfl | rfl <;> decide

theorem mem_intercalate {α : Type} {sep : List α} {x : α} : ∀ {xss : List (List α)}, x ∈ sep.intercalate xss →
    x ∈ sep ∨ ∃ xs ∈ xss, x ∈ xs
  | [], h => by simp at h
  | [xs], h => .inr ⟨xs, List.mem_cons_self, by simpa using h⟩
  | xs :: ys :: xss, h => by
    rw [List.intercalate_cons_cons, List.mem_append, List.mem_append] at h
    rcases h with (h | h) | h
    · exact .inr ⟨xs, List.mem_cons_self, h⟩
    · exact .inl h
    · rcases mem_intercalate h with h | ⟨zs, hzs, h⟩
      · exact .inl h
      · exact .inr ⟨zs, List.mem_cons_of_mem xs hzs, h⟩

theorem Expr.Spelled.solid {c : Nat} {e : Expr} {ws : List String} (h : e.Spelled c ws) : ∀ w ∈ ws, Solid w := by
  induction h with
  | number number => exact List.forall_mem_singleton.mpr (solid_of_isNumber number)
  | boolean b => exact List.forall_mem_singleton.mpr (solid_fixed (by cases b <;> decide))
  | var named => exact List.forall_mem_singleton.mpr (solid_of_isName named)
  | unary op inner ih => exact List.forall_mem_cons.mpr ⟨op.solid_symbol, ih⟩
  | binary op below first second ihl ihr =>
    exact List.forall_mem_append.mpr ⟨ihl, List.forall_mem_cons.mpr ⟨op.solid_symbol, ihr⟩⟩
  | call named free spelled ih =>
    simp only [List.cons_append, List.forall_mem_cons, List.forall_mem_append, List.not_mem_nil, false_implies,
      implies_true, and_true]
    refine ⟨solid_of_isName named, solid_fixed (by decide), fun w hw => ?_, solid_fixed (by decide)⟩
    rcases mem_intercalate hw with hw | ⟨ws, hws, hw⟩
    · cases List.mem_singleton.mp hw
      exact solid_fixed (by decide)
    · obtain ⟨arg, harg, rfl⟩ := List.mem_map.mp hws
      exact ih arg harg w hw
  | parenthesised inner ih =>
    simp only [List.cons_append, List.forall_mem_cons, List.forall_mem_append, List.not_mem_nil, false_implies,
      implies_true, and_true]
    exact ⟨solid_fixed (by decide), ih, solid_fixed (by decide)⟩

/-- The words of statements one after the other. -/
theorem solid_flatten {parts : List (Stmt × List String)} (h : ∀ part ∈ parts, ∀ w ∈ part.2, Solid w) :
    ∀ w ∈ (parts.map Prod.snd).flatten, Solid w := by
  intro w hw
  obtain ⟨ws, hws, hw⟩ := List.mem_flatten.mp hw
  obtain ⟨part, hpart, rfl⟩ := List.mem_map.mp hws
  exact h part hpart w hw

theorem Stmt.Spelled.solid {t : Stmt} {ws : List String} (h : t.Spelled ws) : ∀ w ∈ ws, Solid w := by
  induction h with
  | assign named free spelled =>
    simp only [List.cons_append, List.forall_mem_cons, List.forall_mem_append, List.not_mem_nil, false_implies,
      implies_true, and_true]
    exact ⟨solid_of_isName named, solid_fixed (by decide), spelled.solid, solid_fixed (by decide)⟩
  | ret spelled =>
    simp only [List.cons_append, List.forall_mem_cons, List.forall_mem_append, List.not_mem_nil, false_implies,
      implies_true, and_true]
    exact ⟨solid_fixed (by decide), spelled.solid, solid_fixed (by decide)⟩
  | expr spelled =>
    exact List.forall_mem_append.mpr ⟨spelled.solid, List.forall_mem_singleton.mpr (solid_fixed (by decide))⟩
  | empty => exact List.forall_mem_singleton.mpr (solid_fixed (by decide))
  | block spelled ih =>
    simp only [List.cons_append, List.forall_mem_cons, List.forall_mem_append, List.not_mem_nil, false_implies,
      implies_true, and_true]
    exact ⟨solid_fixed (by decide), solid_flatten ih, solid_fixed (by decide)⟩
  | branch spelled first ih =>
    simp only [List.cons_append, List.forall_mem_cons, List.forall_mem_append]
    exact ⟨solid_fixed (by decide), solid_fixed (by decide), spelled.solid, solid_fixed (by decide), ih⟩
  | branchElse spelled first closed second ihThen ihElse =>
    simp only [List.cons_append, List.append_assoc, List.forall_mem_cons, List.forall_mem_append]
    exact ⟨solid_fixed (by decide), solid_fixed (by decide), spelled.solid, solid_fixed (by decide), ihThen,
      solid_fixed (by decide), ihElse⟩

/-- Names with commas between them. -/
theorem mem_nameWords {w : String} {names : List String} (h : w ∈ nameWords names) : w = "," ∨ w ∈ names := by
  induction names with
  | nil => cases h
  | cons name names ih =>
    cases names with
    | nil => exact .inr h
    | cons other names =>
      rw [nameWords, List.intersperse_cons_cons, List.mem_cons, List.mem_cons] at h
      rcases h with rfl | rfl | h
      · exact .inr List.mem_cons_self
      · exact .inl rfl
      · exact (ih h).imp_right (List.mem_cons_of_mem name)

theorem solid_declare {names : List String} (h : ∀ name ∈ names, isName name) :
    ∀ w ∈ (Stmt.declare names).words, Solid w := by
  simp only [Stmt.words, List.cons_append, List.forall_mem_cons, List.forall_mem_append, List.not_mem_nil, false_implies,
    implies_true, and_true]
  refine ⟨solid_fixed (by decide), fun w hw => ?_, solid_fixed (by decide)⟩
  rcases mem_nameWords hw with rfl | hw
  · exact solid_fixed (by decide)
  · exact solid_of_isName (h w hw)

theorem Program.Spelled.solid {p : Program} {ws : List String} (h : p.Spelled ws) : ∀ w ∈ ws, Solid w := by
  obtain ⟨names, spelled⟩ := h
  refine List.forall_mem_append.mpr ⟨?_, solid_flatten fun part hpart => (spelled part hpart).solid⟩
  unfold declarationWords
  split
  · simp
  · exact solid_declare fun name hname => (names name hname).1

/-! ### Trees that can be written -/

/-- No constant is negative, and every name is an identifier. -/
inductive Expr.Writable : Expr → Prop
  | integer {n : Int64} (natural : 0 ≤ n.toInt) : Writable (.const (.integer n))
  | boolean (b : Bool) : Writable (.const (.boolean b))
  | var {target : Variable} (named : isName target.name) (free : isKeyword target.name = false) : Writable (.var target)
  | unary {operand : Expr} (op : UnaryOp) (inner : operand.Writable) : Writable (.unary op operand)
  | binary {left right : Expr} (op : BinaryOp) (first : left.Writable) (second : right.Writable) :
      Writable (binary op left right)
  | call {name : String} {function : FunctionHandle} {returns : Ty} {args : List Expr} (named : isName name)
      (free : isKeyword name = false) (writable : ∀ arg ∈ args, arg.Writable) : Writable (.call name function returns args)

/-- Besides, no `if` with an `else` has a first branch that would take the `else`. -/
inductive Stmt.Writable : Stmt → Prop
  | assign {target : Variable} {value : Expr} (named : isName target.name) (free : isKeyword target.name = false)
      (writable : value.Writable) : Writable (.assign target value)
  | ret {value : Expr} (writable : value.Writable) : Writable (.ret value)
  | expr {value : Expr} (writable : value.Writable) : Writable (.expr value)
  | empty : Writable .empty
  | block {body : List Stmt} (writable : ∀ s ∈ body, s.Writable) : Writable (.block body)
  | branch {condition : Expr} {decided : Option Bool} {thenBranch : Stmt} {elseBranch : Option Stmt}
      (writable : condition.Writable) (first : thenBranch.Writable) (second : ∀ s ∈ elseBranch, s.Writable)
      (closed : elseBranch.isSome → thenBranch.dangling = false) :
      Writable (.branch condition decided thenBranch elseBranch)

/-- The names and statements of the program can be written. -/
structure Program.Writable (p : Program) : Prop where
  names : ∀ name ∈ p.locals, isName name ∧ isKeyword name = false
  body : ∀ s ∈ p.body, s.Writable

/-! ### The words of a tree spell it -/

theorem isNumber_ofNat (n : Nat) : isNumber (Decimal.ofNat n) := by
  have hdigits : ∀ c ∈ Nat.toDigits 10 n, c.isDigit := fun c hc => Nat.isDigit_of_mem_toDigits (by decide) (by decide) hc
  simp [isNumber, Decimal.ofNat, Decimal.digits, Nat.toDigits_ne_nil, List.all_eq_true.mpr hdigits]

theorem value_ofNat (n : Nat) : Decimal.value (Decimal.ofNat n).toList = n := by
  rw [Decimal.ofNat, String.toList_ofList]
  exact Nat.ofDigitChars_toDigits (by decide) (by decide)

namespace Expr

/-- A natural number in its shortest form. -/
theorem spelled_ofNat {k : Nat} (h : k < integerLimit) (c : Nat) :
    Spelled c (.const (.integer (.ofNat k))) [Decimal.ofNat k] := by
  have hspelled : Spelled c _ [Decimal.ofNat k] := .number (isNumber_ofNat k) (by rwa [value_ofNat])
  rwa [value_ofNat] at hspelled

theorem spelled_integer {n : Int64} (h : 0 ≤ n.toInt) (c : Nat) :
    Spelled c (.const (.integer n)) [(Value.integer n).text] := by
  obtain ⟨k, hk⟩ := Int.eq_ofNat_of_zero_le h
  have hlt := n.toInt_lt
  have htext : (Value.integer n).text = Decimal.ofNat k := by
    rw [Value.text, hk]
    rfl
  have hn : n = .ofNat k := by rw [← Int64.ofInt_eq_ofNat, ← hk, Int64.ofInt_toInt]
  rw [htext, hn]
  refine spelled_ofNat ?_ c
  rw [integerLimit]
  omega

theorem priority_lt (e : Expr) : e.priority < BinaryOp.loosest := by
  unfold priority
  split
  · next op _ _ => cases op <;> decide
  · next op _ _ => cases op <;> decide
  · decide

/-- Where parentheses are not needed, the operator on the outside is below the ceiling. -/
theorem spelled_parenthesised {e : Expr} {ws : List String} {c : Nat} {needed : Bool}
    (h : ∀ c, (0 < e.priority → e.priority < c) → e.Spelled c ws)
    (hneeded : needed = false → 0 < e.priority → e.priority < c) : e.Spelled c (parenthesised needed ws) := by
  cases needed with
  | false => exact h c (hneeded rfl)
  | true => exact .parenthesised (h _ fun _ => e.priority_lt)

theorem argWords_eq (args : List Expr) : argWords args = [","].intercalate (args.map words) := by
  have hmore (args : List Expr) (first : List String) :
      first ++ moreArgWords args = [","].intercalate (first :: args.map words) := by
    induction args generalizing first with
    | nil => simp [moreArgWords]
    | cons arg args ih =>
      rw [moreArgWords, List.map_cons, List.intercalate_cons_cons, ← ih]
      simp
  cases args with
  | nil => rfl
  | cons arg args => exact hmore args arg.words

theorem priority_binary (op : BinaryOp) (left right : Expr) : (binary op left right).priority = op.priority := by
  cases op <;> rfl

theorem words_binary (op : BinaryOp) (left right : Expr) : (binary op left right).words =
    parenthesised (op.priority < left.priority) left.words ++
      op.symbol :: parenthesised (op.priority ≤ right.priority) right.words := by
  cases op <;> rfl

theorem Writable.spelled {e : Expr} (h : e.Writable) : ∀ c, (0 < e.priority → e.priority < c) → e.Spelled c e.words := by
  induction h with
  | integer natural => exact fun c _ => spelled_integer natural c
  | boolean b => exact fun c _ => .boolean b
  | var named free => exact fun c _ => .var named free
  | unary op inner ih =>
    refine fun c _ => .unary op (spelled_parenthesised ih fun hn hp => ?_)
    simp [hp] at hn
  | @binary left right op first second ihl ihr =>
    intro c hc
    rw [priority_binary] at hc
    rw [words_binary]
    refine .binary op (hc ?_) (spelled_parenthesised ihl fun hn _ => ?_) (spelled_parenthesised ihr fun hn _ => ?_)
    · rcases op with op | op <;> cases op <;> decide
    · have := of_decide_eq_false hn
      omega
    · have := of_decide_eq_false hn
      omega
  | @call name function returns args named free writable ih =>
    intro c _
    have hspelled : ∀ part ∈ args.map fun arg => (arg, arg.words), Spelled BinaryOp.loosest part.1 part.2 := by
      intro part hpart
      obtain ⟨arg, harg, rfl⟩ := List.mem_map.mp hpart
      exact ih arg harg _ fun _ => arg.priority_lt
    have hcall : Spelled c (.call name function returns _) _ := .call named free hspelled
    simpa [words, argWords_eq, Function.comp_def] using hcall

end Expr

namespace Stmt

theorem allWords_eq (body : List Stmt) : allWords body = (body.map words).flatten := by
  induction body with
  | nil => rfl
  | cons s body ih => rw [allWords, ih, List.map_cons, List.flatten_cons]

theorem Writable.spelled {t : Stmt} (h : t.Writable) : t.Spelled t.words := by
  have hexpr {e : Expr} (he : e.Writable) : e.Spelled BinaryOp.loosest e.words := he.spelled _ fun _ => e.priority_lt
  induction h with
  | assign named free writable => exact .assign named free (hexpr writable)
  | ret writable => exact .ret (hexpr writable)
  | expr writable => exact .expr (hexpr writable)
  | empty => exact .empty
  | @block body writable ih =>
    have hspelled : ∀ part ∈ body.map fun s => (s, s.words), Spelled part.1 part.2 := by
      intro part hpart
      obtain ⟨s, hs, rfl⟩ := List.mem_map.mp hpart
      exact ih s hs
    have hblock : Spelled (.block _) _ := .block hspelled
    simpa [words, allWords_eq, Function.comp_def] using hblock
  | @branch condition decided thenBranch elseBranch writable first second closed ihThen ihElse =>
    cases elseBranch with
    | none => simpa [words, elseWords] using Spelled.branch (hexpr writable) ihThen
    | some other =>
      simpa [words, elseWords] using Spelled.branchElse (hexpr writable) ihThen (closed rfl) (ihElse other rfl)

end Stmt

theorem Program.Writable.spelled {p : Program} (h : p.Writable) : p.Spelled p.words := by
  have hspelled : ∀ part ∈ p.body.map fun s => (s, s.words), Stmt.Spelled part.1 part.2 := by
    intro part hpart
    obtain ⟨s, hs, rfl⟩ := List.mem_map.mp hpart
    exact (h.body s hs).spelled
  have hprogram : Spelled ⟨p.locals, _⟩ _ := .mk h.names hspelled
  simpa [words, declarationWords, Stmt.allWords_eq, Function.comp_def] using hprogram

end HostScript
