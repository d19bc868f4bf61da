import HostScript.Proofs.Machine.Compiled
import HostScript.Proofs.Reader.RoundTrip

/-! Integers can be written in programs.

The decimal text of an integer is read as a literal, or as the negation of one, and a program that returns
it gives the integer back on every host. Only the least integer has no such text: its digits name a number
that no literal has, since the literal is read before it is negated. -/

namespace HostScript

namespace Expr

/-- What the decimal text of an integer is read as. -/
def numeral (n : Int64) : Expr :=
  match n.toInt with
  | .ofNat k => .const (.integer (.ofNat k))
  | .negSucc k => .unary .negate (.const (.integer (.ofNat (k + 1))))

theorem ty_numeral (n : Int64) : (numeral n).ty = .integer := by
  unfold numeral
  split <;> rfl

theorem typed_numeral (scope : Scope) (n : Int64) : (numeral n).Typed scope := by
  unfold numeral
  split
  · exact .const _
  · exact .unary rfl (.const _)

/-- A numeral evaluates to its integer. -/
theorem eval_numeral {σ : Type} (host : Host σ) (n : Int64) (s : Store σ) :
    (numeral n).eval host s = .ok (some (.integer n)) s := by
  have hback : Int64.ofInt n.toInt = n := Int64.ofInt_toInt n
  unfold numeral
  split
  next k hk =>
    have hn : Int64.ofNat k = n := by
      rw [← Int64.ofInt_eq_ofNat, ← hback, hk]
      rfl
    rw [eval, hn]
    rfl
  next k hk =>
    have hn : -Int64.ofNat (k + 1) = n := by
      rw [← Int64.ofInt_eq_ofNat, ← Int64.ofInt_neg, ← hback, hk]
      rfl
    rw [← hn]
    unfold eval
    rfl

/-- The digits of every integer but the least name a literal. -/
theorem spelled_numeral {n : Int64} (hn : n ≠ Int64.minValue) (c : Nat) :
    ∃ ws, (numeral n).Spelled c ws ∧ Joined ws (Value.integer n).text.toList := by
  have hmin : n.toInt ≠ Int64.minValue.toInt := fun h => hn (Int64.toInt_inj.mp h)
  rw [Int64.toInt_minValue] at hmin
  have hle := n.le_toInt
  have hlt := n.toInt_lt
  have htext : (Value.integer n).text = Decimal.ofInt n.toInt := rfl
  rw [htext]
  unfold numeral
  cases hk : n.toInt with
  | ofNat k =>
    rw [hk, Int.ofNat_eq_natCast] at hlt
    have hfit : k < integerLimit := by
      unfold integerLimit
      omega
    exact ⟨_, spelled_ofNat hfit c, .word (List.forall_mem_nil _) _⟩
  | negSucc k =>
    -- The literal is the magnitude, which fits unless the integer is the least one.
    rw [hk] at hle hmin
    have hfit : k + 1 < integerLimit := by
      unfold integerLimit
      omega
    have hsign : Parted "-".toList (Decimal.ofNat (k + 1)).toList := .of_last (by simp [isNameChar])
    refine ⟨_, .unary .negate (spelled_ofNat hfit 0), ?_⟩
    have htail : Joined [Decimal.ofNat (k + 1)] (Decimal.ofNat (k + 1)).toList :=
      .word (List.forall_mem_nil _) _
    exact String.toList_append ▸ .cons (List.forall_mem_nil _) hsign htail

end Expr

/-! ### Programs that return an expression -/

namespace Program

/-- The program that only returns an expression. -/
def returning (e : Expr) : Program := ⟨[], [.ret e]⟩

variable {scope : Scope} {e : Expr}

theorem typed_returning (ty : e.ty = .integer) (typed : e.Typed scope) : (returning e).Typed scope := by
  intro t ht
  rw [List.mem_singleton.mp ht]
  exact .ret ty typed

theorem read_returning {v : String} (ty : e.ty = .integer) (whole : e.ReadWhole scope v) :
    Program.read scope ("return " ++ v ++ ";") = .ok (returning e, scope) := by
  have hblank : ∀ c ∈ [' '], isBlank c := by simp [isBlank]
  have hend : Joined [v, ";"] ([' '] ++ v.toList ++ ";".toList) :=
    .cons hblank (.of_head (by simp [isNameChar])) (.word (List.forall_mem_nil _) _)
  have hjoined : Joined ["return", v, ";"] ([] ++ "return".toList ++ ([' '] ++ v.toList ++ ";".toList)) :=
    .cons (List.forall_mem_nil _) (.of_head (by simp [isNameChar])) hend
  have htext : ("return " ++ v ++ ";").toList = [] ++ "return".toList ++ ([' '] ++ v.toList ++ ";".toList) := by
    simp
  rw [← htext] at hjoined
  have hret : Stmt.Derived scope (.ret e) ("return " ++ v ++ ";") := .ret ty whole hjoined
  have hderived : Program.Derived scope ⟨([] : List String).eraseDups, [(Stmt.ret e, "return " ++ v ++ ";")].map Prod.fst⟩
      ("return " ++ v ++ ";") :=
    .mk (List.forall_mem_nil _) (List.forall_mem_singleton.mpr hret) (.word (List.forall_mem_nil _) _)
      (List.forall_mem_nil _) (List.append_nil _).symm
  rw [hderived.read]
  rfl

theorem eval_returning {σ : Type} {host : Host σ} {n : Int64} (h : ∀ s, e.eval host s = .ok (some (.integer n)) s)
    (locals : Nat) (args : List Int64) (world : σ) : (returning e).eval host locals args world = .ok n world := by
  unfold eval returning Stmt.execAll Stmt.exec
  simp only [bind, EStateM.bind, h]
  rfl

end Program

/-- Every integer but the least can be written: the program that returns its decimal text compiles for every
    entry point of integers and whatever the host publishes, and each of its runs returns the integer and
    leaves the host as it was. -/
theorem compile_numeral {n : Int64} (hn : n ≠ Int64.minValue) {signature : Signature}
    (result : signature.result = .integer) (params : ∀ param ∈ signature.params, param.ty = .integer)
    (hostScope : HostScope) :
    ∃ artifact, compile ("return " ++ (Value.integer n).text ++ ";") signature hostScope = .ok artifact ∧
      artifact.params = signature.params ∧
      ∀ (σ : Type) (host : Host σ) (args : List Int64) (world : σ), args.length = signature.params.length →
        ∀ fuel, artifact.chunk.code.length ≤ fuel → artifact.run host fuel args world = some (.ok n world) := by
  have hvalid := Signature.validate_of_integer result params
  have hty := Expr.ty_numeral n
  have htyped := Expr.typed_numeral (.bind signature hostScope) n
  obtain ⟨ws, hspelled, hjoined⟩ := Expr.spelled_numeral hn BinaryOp.loosest
  have hwhole := hspelled.readWhole htyped hjoined
  rw [String.ofList_toList] at hwhole
  refine ⟨⟨signature.params, 0, (Program.returning (.numeral n)).chunk⟩, ?_, rfl,
    fun σ host args world hargs fuel hfuel => ?_⟩
  · rw [compile, hvalid]
    simp only [Program.read_returning hty hwhole, Scope.bind_localCount]
  · have hint : ((Scope.bind signature hostScope).declareAll []).Integral := integral_of_validate hvalid
    have hcovers : Store.Covers ((Scope.bind signature hostScope).declareAll []) _ := covers_initial world hargs
    obtain ⟨outcome, hrun, hagrees⟩ :=
      Program.run_agrees hint (Program.typed_returning hty htyped) host hcovers hargs hfuel
    rw [Program.eval_returning (Expr.eval_numeral host n)] at hagrees
    rw [← hagrees]
    exact hrun

/-- The least integer that can be written, for an entry point with a parameter and beside a global and a
    function of the host. -/
theorem compile_numeral_negative :
    (Value.integer (Int64.minValue + 1)).text = "-9223372036854775807" ∧
    ∃ artifact, compile "return -9223372036854775807;" ⟨[⟨"a", .integer⟩], .integer⟩
        ⟨[("g", ⟨0⟩)], [("f", ⟨⟨0⟩, ⟨[.boolean], .void⟩, by decide⟩)]⟩ = .ok artifact ∧
      ∀ (σ : Type) (host : Host σ) (world : σ),
        artifact.run host artifact.chunk.code.length [5] world = some (.ok (Int64.minValue + 1) world) := by
  have htext : (Value.integer (Int64.minValue + 1)).text = "-9223372036854775807" := by decide +kernel
  have hparams : ∀ param ∈ (⟨[⟨"a", .integer⟩], .integer⟩ : Signature).params, param.ty = .integer :=
    List.forall_mem_singleton.mpr rfl
  obtain ⟨artifact, hcompile, -, hrun⟩ := compile_numeral (n := Int64.minValue + 1) (by decide) rfl hparams
    ⟨[("g", ⟨0⟩)], [("f", ⟨⟨0⟩, ⟨[.boolean], .void⟩, by decide⟩)]⟩
  rw [htext] at hcompile
  exact ⟨htext, artifact, hcompile, fun σ host world => hrun σ host [5] world rfl _ (Nat.le_refl _)⟩

/-- The magnitude of the least integer is no literal, so its text is refused; and no program at all compiles
    for an entry point that takes a boolean. -/
theorem compile_numeral_least_refused :
    (Value.integer Int64.minValue).text = "-9223372036854775808" ∧
    (compile "return -9223372036854775808;" ⟨[], .integer⟩ {}).isOk = false ∧
    (Value.integer 1).text = "1" ∧
    compile "return 1;" ⟨[⟨"b", .boolean⟩], .integer⟩ {} =
      .error (.error (.typeMismatch .entryPoint "parameter 'b'" (some 0) .integer .boolean)) :=
  ⟨by decide +kernel, by decide +kernel, by decide +kernel, rfl⟩

end HostScript
