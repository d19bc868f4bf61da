import HostScript.Proofs.Machine.Forward

/-! A compiled program returns through its own return statements.

Behind the statements of a program that does not end with a return stands code that returns zero. What
compiles cannot be passed without a return, so a run never gets there: the code of the statements alone,
with nothing behind it, takes the run to the same end. And a return instruction in the code of statements
is the last instruction of a return statement. -/

namespace HostScript

open Machine

/-! ### Return statements in the code -/

/-- An element of two lists one behind the other is one of the first or of the second. -/
theorem getElem?_append_cases {α : Type} {a b : List α} {i : Nat} {x : α} (h : (a ++ b)[i]? = some x) :
    a[i]? = some x ∨ ∃ j, i = a.length + j ∧ b[j]? = some x := by
  rw [List.getElem?_append] at h
  split at h
  · exact .inl h
  next hge => exact .inr ⟨i - a.length, by omega, h⟩

/-- The instruction neither returns nor stores. -/
def Instr.computes : Instr → Bool
  | .ret | .storeParam _ | .storeLocal _ | .storeGlobal _ => false
  | _ => true

theorem Variable.computes_load (v : Variable) : v.load.computes := by
  unfold load
  split <;> rfl

namespace Expr

mutual

theorem computes_fragment : ∀ (e : Expr) (address : Nat) (label : Label),
    (e.fragment address label).code.all Instr.computes
  | const value, address, label => rfl
  | var target, address, label => by simp [fragment, target.computes_load]
  | unary op operand, address, label => by
    have ih := computes_fragment operand address label
    cases op <;> simp [fragment, UnaryOp.code, ih, Instr.computes]
  | strict op left right, address, label => by
    simp [fragment, computes_fragment left, computes_fragment right, Instr.computes]
  | logical .or left right, address, label => by
    simp [fragment, computes_fragment left, computes_fragment right, Instr.computes]
  | logical .and left right, address, label => by
    simp [fragment, computes_fragment left, computes_fragment right, Instr.computes]
  | call name function returns args, address, label => by
    simp [fragment, computes_fragments args, Instr.computes]

theorem computes_fragments : ∀ (args : List Expr) (address : Nat) (label : Label),
    (fragments args address label).code.all Instr.computes
  | [], address, label => rfl
  | e :: es, address, label => by
    rw [fragments, List.all_append, computes_fragment e, computes_fragments es, Bool.and_self]

end

theorem computes_of_mem {e : Expr} {address : Nat} {label : Label} {i : Instr}
    (h : i ∈ (e.fragment address label).code) : i.computes :=
  List.all_eq_true.mp (e.computes_fragment address label) i h

end Expr

namespace Stmt

/-- The code of a statement, placed at an address and a label, has that of a return statement in it, which
    returns the value by the instruction at `place`. A branch that is dead has no code. -/
inductive ReturnsAt : Stmt → Nat → Label → Expr → Nat → Prop
  | ret (value : Expr) (address : Nat) (label : Label) :
      ReturnsAt (.ret value) address label value (address + (value.fragment address label).code.length)
  | block {before behind : List Stmt} {t : Stmt} {address place : Nat} {label : Label} {value : Expr}
      (part : ReturnsAt t (address + (fragments before address label).code.length)
        (label + (fragments before address label).targets.length) value place) :
      ReturnsAt (.block (before ++ t :: behind)) address label value place
  | decidedThen {condition value : Expr} {t : Stmt} {elseBranch : Option Stmt} {address place : Nat} {label : Label}
      (part : ReturnsAt t address label value place) :
      ReturnsAt (.branch condition (some true) t elseBranch) address label value place
  | decidedElse {condition value : Expr} {thenBranch t : Stmt} {address place : Nat} {label : Label}
      (part : ReturnsAt t address label value place) :
      ReturnsAt (.branch condition (some false) thenBranch (some t)) address label value place
  | openThen {condition value : Expr} {t : Stmt} {elseBranch : Option Stmt} {address place : Nat} {label : Label}
      (part : ReturnsAt t (address + (condition.fragment address (label + 1)).code.length + 1)
        (label + 1 + (condition.fragment address (label + 1)).targets.length) value place) :
      ReturnsAt (.branch condition none t elseBranch) address label value place
  | openElse {condition value : Expr} {thenBranch t : Stmt} {address place middle : Nat} {label inner : Label}
      (hmiddle : middle = address + (condition.fragment address (label + 1)).code.length + 1)
      (hinner : inner = label + 1 + (condition.fragment address (label + 1)).targets.length)
      (part : ReturnsAt t (middle + (thenBranch.fragment middle inner).code.length + 1)
        (inner + (thenBranch.fragment middle inner).targets.length + 1) value place) :
      ReturnsAt (.branch condition none thenBranch (some t)) address label value place

/-- A return behind the code of an expression is not one of the expression. -/
theorem ret_behind {e : Expr} {address i : Nat} {label : Label} {code : List Instr}
    (h : ((e.fragment address label).code ++ code)[i]? = some .ret) :
    ∃ j, i = (e.fragment address label).code.length + j ∧ code[j]? = some .ret := by
  rcases getElem?_append_cases h with h | h
  · cases Expr.computes_of_mem (List.mem_of_getElem? h)
  · exact h

mutual

/-- Every return instruction in the code of a statement belongs to a return statement. -/
theorem returnsAt_of_code : ∀ (t : Stmt) (place : Nat) {address i : Nat} {label : Label},
    (t.fragment address label).code[i]? = some .ret → place = address + i →
      ∃ value, t.ReturnsAt address label value place
  | declare names, place, address, i, label, h, hplace => by cases h
  | assign target value, place, address, i, label, h, hplace => by
    obtain ⟨j, -, hcode⟩ := ret_behind h
    have hne : target.store ≠ .ret := by
      unfold Variable.store
      split <;> exact Instr.noConfusion
    cases j with
    | zero => exact absurd (Option.some.inj hcode) hne
    | succ j => cases hcode
  | ret value, place, address, i, label, h, hplace => by
    obtain ⟨j, rfl, hcode⟩ := ret_behind h
    cases j with
    | zero =>
      rw [hplace]
      exact ⟨value, .ret value address label⟩
    | succ j => cases hcode
  | expr value, place, address, i, label, h, hplace => by
    obtain ⟨j, -, hcode⟩ := ret_behind h
    split at hcode
    · cases j <;> cases hcode
    · cases hcode
  | empty, place, address, i, label, h, hplace => by cases h
  | block body, place, address, i, label, h, hplace => by
    obtain ⟨before, t, behind, value, rfl, hpart⟩ := returnsAt_of_codes body place h hplace
    exact ⟨value, .block hpart⟩
  | branch _ (some true) thenBranch _, place, address, i, label, h, hplace => by
    obtain ⟨value, hpart⟩ := returnsAt_of_code thenBranch place h hplace
    exact ⟨value, .decidedThen hpart⟩
  | branch _ (some false) _ none, place, address, i, label, h, hplace => by cases h
  | branch _ (some false) _ (some elseBranch), place, address, i, label, h, hplace => by
    obtain ⟨value, hpart⟩ := returnsAt_of_code elseBranch place h hplace
    exact ⟨value, .decidedElse hpart⟩
  | branch condition none thenBranch none, place, address, i, label, h, hplace => by
    simp only [fragment, List.append_assoc, List.cons_append, List.nil_append] at h
    obtain ⟨j, rfl, hcode⟩ := ret_behind h
    cases j with
    | zero => cases hcode
    | succ j =>
      rw [List.getElem?_cons_succ] at hcode
      obtain ⟨value, hpart⟩ := returnsAt_of_code thenBranch place hcode (by omega)
      exact ⟨value, .openThen hpart⟩
  | branch condition none thenBranch (some elseBranch), place, address, i, label, h, hplace => by
    simp only [fragment, List.append_assoc, List.cons_append, List.nil_append] at h
    obtain ⟨j, rfl, hcode⟩ := ret_behind h
    cases j with
    | zero => cases hcode
    | succ j =>
      rw [List.getElem?_cons_succ] at hcode
      rcases getElem?_append_cases hcode with hthen | ⟨k, rfl, hrest⟩
      · obtain ⟨value, hpart⟩ := returnsAt_of_code thenBranch place hthen (by omega)
        exact ⟨value, .openThen hpart⟩
      · cases k with
        | zero => cases hrest
        | succ k =>
          rw [List.getElem?_cons_succ] at hrest
          obtain ⟨value, hpart⟩ := returnsAt_of_code elseBranch place hrest (by omega)
          exact ⟨value, .openElse rfl rfl hpart⟩

theorem returnsAt_of_codes : ∀ (body : List Stmt) (place : Nat) {address i : Nat} {label : Label},
    (fragments body address label).code[i]? = some .ret → place = address + i →
      ∃ before t behind value, body = before ++ t :: behind ∧
        t.ReturnsAt (address + (fragments before address label).code.length)
          (label + (fragments before address label).targets.length) value place
  | [], place, address, i, label, h, hplace => by cases h
  | t :: body, place, address, i, label, h, hplace => by
    rcases getElem?_append_cases h with hfirst | ⟨j, rfl, hrest⟩
    · obtain ⟨value, hpart⟩ := returnsAt_of_code t place hfirst hplace
      exact ⟨[], t, body, value, rfl, hpart⟩
    · obtain ⟨before, u, behind, value, rfl, hpart⟩ := returnsAt_of_codes body place hrest (by omega)
      refine ⟨t :: before, u, behind, value, rfl, ?_⟩
      simpa only [fragments, List.length_append, Nat.add_assoc] using hpart

end

end Stmt

/-! ### Runs that end before what stands behind -/

namespace Machine

variable {σ : Type} {host : Host σ} {code behind : List Instr} {labels : List (Option Nat)} {m : Machine σ}

/-- Code that stands behind makes no difference to a step before it. -/
theorem step_append (hip : m.ip < code.length) : m.step host ⟨code ++ behind, labels⟩ = m.step host ⟨code, labels⟩ := by
  unfold step
  rw [List.getElem?_append_left hip]
  cases code[m.ip]? with
  | none => rfl
  | some i => cases i <;> rfl

theorem Ready.ip_lt {chunk : Chunk} (h : m.Ready chunk) : m.ip < chunk.code.length := by
  obtain ⟨i, hi, -⟩ := h
  exact (List.getElem?_eq_some_iff.mp hi).1

/-- A run that ends within the code executes nothing that stands behind it. -/
theorem Goes.executed_lt {n : Nat} {r : Machine σ ⊕ Outcome σ} {o : Outcome σ} (h : Goes host ⟨code, labels⟩ n m r)
    (hr : r = .inr o) {fuel address : Nat} (ha : address ∈ executed host ⟨code ++ behind, labels⟩ fuel m) :
    address < code.length := by
  induction h generalizing fuel with
  | here m => cases hr
  | @next n m m₁ r ready hstep _ ih =>
    cases fuel with
    | zero => cases ha
    | succ fuel =>
      rw [← step_append ready.ip_lt] at hstep
      unfold executed at ha
      split at ha
      · rcases List.mem_cons.mp ha with rfl | ha
        · exact ready.ip_lt
        · rw [hstep] at ha
          exact ih hr ha
      · cases ha
  | @last m o' ready hstep =>
    cases fuel with
    | zero => cases ha
    | succ fuel =>
      rw [← step_append ready.ip_lt] at hstep
      unfold executed at ha
      split at ha
      · rcases List.mem_cons.mp ha with rfl | ha
        · exact ready.ip_lt
        · rw [hstep] at ha
          cases ha
      · cases ha

/-- The action does not end the run with a value. -/
def Continues (x : Action σ (Option Int64)) : Prop := ∀ m result m₁, x m = .ok result m₁ → result = none

namespace Continues

theorem pure : Continues (Pure.pure none : Action σ (Option Int64)) := fun m result m₁ h => by
  cases h
  rfl

theorem throw (e : RuntimeError) : Continues (MonadExcept.throw e : Action σ (Option Int64)) :=
  fun m result m₁ h => by cases h

theorem bind {α : Type} (x : Action σ α) {f : α → Action σ (Option Int64)} (hf : ∀ a, Continues (f a)) :
    Continues (x >>= f) := by
  intro m result m₁ h
  rw [bind_apply] at h
  split at h
  next a m' _ => exact hf a m' result m₁ h
  next => cases h

end Continues

variable {chunk : Chunk}

theorem continues_execute {address : Nat} {i : Instr} (hi : i ≠ .ret) : Continues (execute host chunk address i) := by
  cases i with
  | push | pop | jump => exact .bind _ fun _ => .pure
  | loadParam | loadLocal | storeParam | storeLocal | loadGlobal | storeGlobal | neg | not =>
    exact .bind _ fun _ => .bind _ fun _ => .pure
  | strict op =>
    refine .bind _ fun b => .bind _ fun a => ?_
    cases op.result? a b with
    | some value => exact .bind _ fun _ => .pure
    | none => exact .throw _
  | jumpUnless label =>
    refine .bind _ fun b => ?_
    cases b with
    | true => exact .pure
    | false => exact .bind _ fun _ => .pure
  | call function argc returns => exact .bind _ fun _ => .bind _ fun _ => .bind _ fun _ => .pure
  | ret => exact absurd rfl hi

/-- A run that returns does so by a return instruction. -/
theorem code_of_step_ok {n : Int64} {world : σ} (h : m.step host chunk = .inr (.ok n world)) :
    chunk.code[m.ip]? = some .ret := by
  unfold step at h
  split at h
  · cases h
  next i hi =>
    by_cases hret : i = .ret
    · rw [hi, hret]
    · split at h
      · cases h
      next he =>
        have := continues_execute hret _ _ _ he
        cases this
      · cases h

theorem ip_lt_of_step {m₁ : Machine σ} (h : m.step host chunk = .inl m₁) : m.ip < chunk.code.length := by
  unfold step at h
  split at h
  · cases h
  next i hi => exact (List.getElem?_eq_some_iff.mp hi).1

/-- The last instruction that such a run executes is that return. -/
theorem getLast?_executed {n : Int64} {world : σ} : ∀ {fuel : Nat} {m : Machine σ},
    runFor host chunk fuel m = some (.ok n world) →
      ∃ place, (executed host chunk fuel m).getLast? = some place ∧ chunk.code[place]? = some .ret
  | fuel + 1, m, h => by
    unfold runFor at h
    unfold executed
    cases hs : step host chunk m with
    | inl m₁ =>
      simp only [hs] at h
      obtain ⟨place, hlast, hcode⟩ := getLast?_executed h
      rw [if_pos (ip_lt_of_step hs)]
      exact ⟨place, by simp [List.getLast?_cons, hlast], hcode⟩
    | inr outcome =>
      simp only [hs, Option.some.injEq] at h
      subst h
      have hcode := code_of_step_ok hs
      rw [if_pos (List.getElem?_eq_some_iff.mp hcode).1]
      exact ⟨m.ip, rfl, hcode⟩

end Machine

/-! ### Programs -/

namespace Program

/-- Where the code of a program has its return statements. -/
def ReturnsAt (p : Program) (value : Expr) (place : Nat) : Prop := (Stmt.block p.body).ReturnsAt 0 0 value place

theorem returnsAt_of_code {p : Program} {place : Nat} (h : p.chunk.code[place]? = some .ret)
    (hlt : place < (Stmt.fragments p.body 0 0).code.length) : ∃ value, p.ReturnsAt value place := by
  refine Stmt.returnsAt_of_code (.block p.body) place (i := place) ?_ (Nat.zero_add place).symm
  simpa [code_chunk, Stmt.fragment, List.getElem?_append_left hlt] using h

variable {σ : Type}

/-- If the program cannot be passed without a return, the code of its statements takes the run to its end. -/
theorem goes_statements {scope : Scope} (hint : scope.Integral) {p : Program} (hp : p.Typed scope)
    (hreturns : Stmt.anyReturns p.body) (host : Host σ) {params : List Parameter} {locals : Nat} {args : List Int64}
    {world : σ}
    (hs : Store.Covers scope ⟨(args.map .integer).toArray, Array.replicate locals (.integer 0), world⟩) :
    ∃ n o, Goes host ⟨(Stmt.fragments p.body 0 0).code, p.chunk.labels⟩ n
      (.initial ⟨params, locals, p.chunk⟩ args world) (.inr o) := by
  have hsafe := Stmt.execAll_safe host (fun t ht => Stmt.exec_safe host hint (hp t ht)) _ hs
  have hplaced : (Stmt.fragments p.body 0 0).Placed ⟨(Stmt.fragments p.body 0 0).code, p.chunk.labels⟩ 0 0 :=
    ⟨fun i _ => by simp, p.placed_chunk.targets⟩
  have h : Simulates host _ _ _ _ (Stmt.execAll host p.body _) := Stmt.simulates_all hint p.body hp hplaced
    ⟨(args.map .integer).toArray, Array.replicate locals (.integer 0), world⟩
  cases hr : Stmt.execAll host p.body ⟨(args.map .integer).toArray, Array.replicate locals (.integer 0), world⟩ with
  | ok result s' =>
    rw [hr] at h hsafe
    obtain ⟨v, rfl⟩ := Option.isSome_iff_exists.mp (hsafe.1 hreturns)
    obtain ⟨n, -, hg⟩ := h
    exact ⟨n, _, hg⟩
  | error fault s' =>
    rw [hr] at h hsafe
    obtain ⟨n, -, e, hg, -⟩ := h hsafe
    exact ⟨n, _, hg⟩

end Program

section Artifacts

variable {text : String} {signature : Signature} {hostScope : HostScope} {artifact : Artifact}

/-- A compiled program returns through a return statement. No run executes what stands behind the code of
    the statements, and the last instruction of a run that returns is the one of a return statement. -/
theorem returns_by_statement (h : compile text signature hostScope = .ok artifact) :
    ∃ p scope, Program.read (.bind signature hostScope) text = .ok (p, scope) ∧
      artifact.chunk.code = (Stmt.fragments p.body 0 0).code ++ Program.tail p.body ∧
      ∀ (σ : Type) (host : Host σ) (args : List Int64) (world : σ) (fuel : Nat),
        (∀ address ∈ artifact.executed host fuel args world, address < (Stmt.fragments p.body 0 0).code.length) ∧
        ∀ n last, artifact.run host fuel args world = some (.ok n last) →
          ∃ value place, p.ReturnsAt value place ∧ artifact.chunk.code[place]? = some .ret ∧
            (artifact.executed host fuel args world).getLast? = some place := by
  obtain ⟨hv, p, hread, rfl⟩ := compile_eq_ok h
  refine ⟨p, _, hread, p.code_chunk, fun σ host args world fuel => ?_⟩
  unfold Artifact.executed Artifact.run
  split
  next hargs =>
    obtain ⟨-, hreturns, -⟩ := Program.read_eq_ok hread
    obtain ⟨k, o, hg⟩ := Program.goes_statements (integral_of_validate hv) (Program.typed_of_read hread).1 hreturns host
      (covers_initial world hargs)
    have hchunk : p.chunk = ⟨(Stmt.fragments p.body 0 0).code ++ Program.tail p.body, p.chunk.labels⟩ := by
      rw [← p.code_chunk]
    have hlt : ∀ address ∈ Machine.executed host p.chunk fuel (.initial ⟨signature.params, p.locals.length, p.chunk⟩ args world),
        address < (Stmt.fragments p.body 0 0).code.length := fun address ha =>
      hg.executed_lt rfl (congrArg (Machine.executed host · fuel _) hchunk ▸ ha)
    refine ⟨hlt, fun n last hrun => ?_⟩
    obtain ⟨place, hlast, hcode⟩ := Machine.getLast?_executed hrun
    obtain ⟨value, hvalue⟩ := Program.returnsAt_of_code hcode (hlt place (List.mem_of_getLast? hlast))
    exact ⟨value, place, hvalue, hcode, hlast⟩
  next => exact ⟨fun address ha => (nomatch ha), fun n last hrun => (nomatch hrun)⟩

/-- A branch of which both sides return; the code that returns zero stands from address eleven on. -/
def twoReturns : Artifact where
  params := [⟨"a", .integer⟩]
  locals := 1
  chunk := {
    code := [.loadParam 0, .push (.integer 0), .strict .gt, .jumpUnless 0, .loadParam 0, .ret, .jump 1, .loadParam 0,
      .storeLocal 0, .loadLocal 0, .ret, .push (.integer 0), .ret]
    labels := [some 7, some 11] }

/-- On a negative argument the run returns by the second of the statements. -/
theorem returns_by_statement_branch :
    compile "var b; if (a > 0) return a; else \x7b b = a; return b; \x7d" ⟨[⟨"a", .integer⟩], .integer⟩ {} =
        .ok twoReturns ∧
      ∃ p : Program, twoReturns.chunk.code = (Stmt.fragments p.body 0 0).code ++ Program.tail p.body ∧
        ∀ (σ : Type) (host : Host σ) (world : σ), twoReturns.run host 20 [-3] world = some (.ok (-3) world) ∧
          (∀ address ∈ twoReturns.executed host 20 [-3] world, address < (Stmt.fragments p.body 0 0).code.length) ∧
          ∃ value, p.ReturnsAt value 10 := by
  have h : compile "var b; if (a > 0) return a; else \x7b b = a; return b; \x7d" ⟨[⟨"a", .integer⟩], .integer⟩ {} =
      .ok twoReturns := Except.eq_ok_of_toOption (by decide +kernel)
  obtain ⟨p, scope, -, hcode, hrun⟩ := returns_by_statement h
  refine ⟨h, p, hcode, fun σ host world => ⟨rfl, (hrun σ host [-3] world 20).1, ?_⟩⟩
  obtain ⟨value, place, hvalue, -, hlast⟩ := (hrun σ host [-3] world 20).2 (-3) world rfl
  have hten : (twoReturns.executed host 20 [-3] world).getLast? = some 10 := rfl
  rw [hten] at hlast
  cases hlast
  exact ⟨value, hvalue⟩

end Artifacts
end HostScript
