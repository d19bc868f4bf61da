import HostScript.Proofs.Reader.Phrases
import HostScript.Reader.Rule
import Mathlib.Data.List.Chain
import Mathlib.Data.List.TakeWhile

/-! Printed expressions are read back.

The words of an expression may follow one another with any blanks between them, or with none: of two
neighbours one is a sign, so they do not run together. Printed with the fewest parentheses and followed by
a sign that ends it, an expression is read as itself, up to the end of what was printed. -/

namespace HostScript

/-! ### Words with any blanks -/

/-- A text that is words behind one another, with blanks before them or without. -/
inductive Strung : List String → List Char → Prop
  | nil : Strung [] []
  | cons {gap text : List Char} {w : String} {ws : List String} (blank : ∀ c ∈ gap, isBlank c) (rest : Strung ws text) :
      Strung (w :: ws) (gap ++ w.toList ++ text)

/-- Of two neighbours one is a sign. -/
def Alternating (ws : List String) : Prop := ws.IsChain fun v w => isSign v ∨ isSign w

variable {w : String} {ws vs : List String} {u v : List Char}

namespace Alternating

theorem one (w : String) : Alternating [w] := .singleton w

theorem sign_cons (hw : isSign w) (h : Alternating ws) : Alternating (w :: ws) :=
  List.isChain_cons.mpr ⟨fun _ _ => .inl hw, h⟩

theorem append_sign (h₁ : Alternating ws) (h₂ : Alternating (w :: vs)) (hw : isSign w) : Alternating (ws ++ w :: vs) := by
  refine List.IsChain.append h₁ h₂ fun _ _ next hnext => .inr ?_
  cases hnext
  exact hw

theorem intercalate : ∀ {wss : List (List String)}, (∀ ws ∈ wss, Alternating ws) → Alternating ([","].intercalate wss)
  | [], _ => .nil
  | [ws], h => by
    rw [List.intercalate_singleton]
    exact h ws List.mem_cons_self
  | ws :: vs :: wss, h => by
    rw [List.intercalate_cons_cons, List.append_assoc]
    have hrest := intercalate fun ws hws => h ws (List.mem_cons_of_mem _ hws)
    exact (h ws List.mem_cons_self).append_sign (hrest.sign_cons (by decide)) (by decide)

end Alternating

theorem Expr.Spelled.alternating {c : Nat} {e : Expr} (h : e.Spelled c ws) : Alternating ws := by
  induction h with
  | number | boolean | var => exact .one _
  | unary op _ ih => exact ih.sign_cons op.isSign_symbol
  | binary op _ _ _ ihl ihr => exact ihl.append_sign (ihr.sign_cons op.isSign_symbol) op.isSign_symbol
  | call _ _ _ ih =>
    have hargs : Alternating _ := .intercalate fun ws hws => by
      obtain ⟨arg, harg, rfl⟩ := List.mem_map.mp hws
      exact ih arg harg
    have hpar := (hargs.append_sign (.one ")") (by decide)).sign_cons (w := "(") (by decide)
    exact (Alternating.one _).append_sign hpar (by decide)
  | parenthesised _ ih => exact (ih.append_sign (.one ")") (by decide)).sign_cons (by decide)

namespace Strung

/-- Words of which none runs together with the next are joined. -/
theorem joined (h : Strung ws u) (ha : Alternating ws) : Joined ws u := by
  induction h with
  | nil => exact .nil
  | @cons gap text w ws blank rest ih =>
    obtain ⟨hnext, ha⟩ := List.isChain_cons.mp ha
    refine .cons blank ?_ (ih ha)
    cases rest with
    | nil => exact .of_head (by simp)
    | @cons gap' text' w' ws' blank' rest' =>
      rcases hnext w' rfl with hw | hw
      · obtain ⟨c, hlast, hc⟩ := ended_of_isSign hw
        refine .of_last fun d hd => ?_
        rw [hlast] at hd
        cases hd
        exact hc
      · exact .of_head (head_gap_of_isSign blank' hw text')

/-- Words without blanks. -/
theorem flatten : ∀ ws : List String, Strung ws (ws.map String.toList).flatten
  | [] => .nil
  | _ :: ws => .cons (List.forall_mem_nil _) (flatten ws)

end Strung

theorem Joined.strung (h : Joined ws u) : Strung ws u := by
  induction h with
  | nil => exact .nil
  | cons blank _ _ ih => exact .cons blank ih

/-! ### What ends an expression -/

/-- Nothing stands behind the blanks, or a sign that ends an expression. -/
def Closes (tail : List Char) : Prop := ∀ c ∈ (tail.dropWhile isBlank).head?, c ∈ [';', ')', ',']

theorem Ahead.blank {c : Nat} {gap : List Char} (hg : ∀ d ∈ gap, isBlank d) : Ahead c gap := by
  have hnone : gap.dropWhile isBlank = [] := List.dropWhile_eq_nil_iff.mpr hg
  refine ⟨fun d hd => not_isWordChar_of_isBlank (hg d (List.mem_of_mem_head? hd)), ?_, fun op hop => ?_⟩
  · exact not_ahead_of_head "(" (by decide) rfl (by simp [hnone])
  · rw [operatorAhead, Grammar.ahead?, hnone] at hop
    cases hop

theorem Closes.ahead {c : Nat} {tail : List Char} (h : Closes tail) : Ahead c tail := by
  have hsplit : tail.takeWhile isBlank ++ tail.dropWhile isBlank = tail := List.takeWhile_append_dropWhile
  have hg : ∀ d ∈ tail.takeWhile isBlank, isBlank d := isBlank_of_mem_takeWhile
  unfold Closes at h
  rw [← hsplit]
  cases hrest : tail.dropWhile isBlank with
  | nil =>
    rw [List.append_nil]
    exact .blank hg
  | cons d rest =>
    rw [hrest] at h
    have hd := h d rfl
    have hclosing (w : String) (hw : w ∈ [";", ")", ","]) : Ahead c (_ ++ w.toList ++ rest) := .closing hw hg rest
    simp only [List.append_assoc] at hclosing
    simp only [List.mem_cons, List.not_mem_nil, or_false] at hd
    rcases hd with rfl | rfl | rfl
    · exact hclosing ";" (by decide)
    · exact hclosing ")" (by decide)
    · exact hclosing "," (by decide)

/-- An expression that is printed with the fewest parentheses, with any blanks between the words, and
    followed by nothing or a sign that ends it, is read back, and no more than what was printed. -/
theorem Expr.read_words {scope : Scope} {e : Expr} (typed : e.Typed scope) (writable : e.Writable) {u tail : List Char}
    (printed : Strung e.words u) (closes : Closes tail) {p : Place} (hp : p.rest = u ++ tail) :
    ∃ q, p.Spans u q ∧ Reader.expression scope.context (.ofPlace p) = .ok (e, .ofPlace q) := by
  have hspelled := writable.spelled BinaryOp.loosest fun _ => e.priority_lt
  exact hspelled.expression_joined scope.context typed (printed.joined hspelled.alternating) closes.ahead hp

/-- A comparison and a negation, with parentheses where the operators need them. -/
def Expr.crowded (a b : Variable) (f : FunctionHandle) : Expr :=
  .logical .and
    (.strict .lt (.strict .sub (.var a) (.strict .sub (.var b) (.unary .negate (.strict .add (.const (.integer 1)) (.var a)))))
      (.call "f" f .integer [.var a, .strict .mul (.var b) (.const (.integer 2))]))
    (.unary .not (.logical .or (.strict .eq (.var a) (.var b)) (.const (.boolean false))))

theorem Expr.read_words_crowded :
    let function : HostFunction := ⟨⟨3⟩, ⟨[.integer, .integer], .integer⟩, by decide⟩
    let scope := Scope.bind ⟨[⟨"a", .integer⟩], .integer⟩ ⟨[("b", ⟨0⟩)], [("f", function)]⟩
    let e := crowded ⟨"a", .parameter 0, .integer⟩ ⟨"b", .global ⟨0⟩, .integer⟩ ⟨3⟩
    let text := "a-(b--(1+a))<f(a,b*2)&&!(a==b||false)".toList
    ∃ q, (Place.start (text ++ "\t; b = 1;".toList)).Spans text q ∧
      Reader.expression scope.context (.ofPlace (.start (text ++ "\t; b = 1;".toList))) = .ok (e, .ofPlace q) := by
  intro function scope e text
  have ha : (Expr.var ⟨"a", .parameter 0, .integer⟩).Typed scope := .var rfl
  have hb : (Expr.var ⟨"b", .global ⟨0⟩, .integer⟩).Typed scope := .var rfl
  have typed : e.Typed scope := by
    refine .logical rfl rfl (.strict rfl rfl ?_ (@Typed.call scope "f" function _ rfl rfl ?_))
      (.unary rfl (.logical rfl rfl (.strict rfl rfl ha hb) (.const _)))
    · exact .strict rfl rfl ha (.strict rfl rfl hb (.unary rfl (.strict rfl rfl (.const _) ha)))
    · simp only [List.forall_mem_cons, List.not_mem_nil, false_implies, implies_true, and_true]
      exact ⟨ha, .strict rfl rfl hb (.const _)⟩
  have ha : (Expr.var ⟨"a", .parameter 0, .integer⟩).Writable := .var (by decide) (by decide)
  have hb : (Expr.var ⟨"b", .global ⟨0⟩, .integer⟩).Writable := .var (by decide) (by decide)
  have writable : e.Writable := by
    refine .binary (.logical .and) (.binary (.strict .lt) ?_ (.call (by decide) (by decide) ?_))
      (.unary .not (.binary (.logical .or) (.binary (.strict .eq) ha hb) (.boolean false)))
    · exact .binary (.strict .sub) ha (.binary (.strict .sub) hb
        (.unary .negate (.binary (.strict .add) (.integer (by decide)) ha)))
    · simp only [List.forall_mem_cons, List.not_mem_nil, false_implies, implies_true, and_true]
      exact ⟨ha, .binary (.strict .mul) hb (.integer (by decide))⟩
  have printed : Strung e.words text := by
    have hflat : (e.words.map String.toList).flatten = text := by decide +kernel
    exact hflat ▸ Strung.flatten e.words
  have closes : Closes "\t; b = 1;".toList := by
    intro c hc
    cases hc
    decide
  exact read_words typed writable printed closes rfl

end HostScript
