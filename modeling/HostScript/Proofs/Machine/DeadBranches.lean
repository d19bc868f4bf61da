import HostScript.Host.Stock
import HostScript.Proofs.Folding
import HostScript.Proofs.Host.Sessions
import HostScript.Proofs.Machine.Compiled

/-! Dead branches may be left out of the code.

A branch that was decided runs without its condition. To forget what was decided is to evaluate all
conditions and to generate code for all branches. On a native host that changes neither the outcome nor
the last state of the host if the conditions of the decided branches are harmless: the host has an entry
for every global in scope, and a run takes none away, so those conditions evaluate to what they fold to. -/

namespace HostScript

open Eval

/-! ### Programs that have forgotten what was decided -/

namespace Stmt

mutual

/-- Every branch forgets that its condition was decided. -/
def erase : Stmt → Stmt
  | block body => .block (eraseAll body)
  | branch condition _ thenBranch elseBranch => .branch condition none thenBranch.erase (eraseOption elseBranch)
  | declare names => .declare names
  | assign target value => .assign target value
  | ret value => .ret value
  | expr value => .expr value
  | empty => .empty

/-- The same for statements in a row. -/
def eraseAll : List Stmt → List Stmt
  | [] => []
  | s :: body => s.erase :: eraseAll body

/-- The same for a branch that may be missing. -/
def eraseOption : Option Stmt → Option Stmt
  | none => none
  | some s => some s.erase

end

mutual

/-- The conditions of all decided branches are harmless. -/
def harmless : Stmt → Bool
  | block body => allHarmless body
  | branch condition decided thenBranch elseBranch =>
    (decided.isNone || condition.harmless) && thenBranch.harmless && optionHarmless elseBranch
  | declare _ | assign _ _ | ret _ | expr _ | empty => true

/-- The same for statements in a row. -/
def allHarmless : List Stmt → Bool
  | [] => true
  | s :: body => s.harmless && allHarmless body

/-- The same for a branch that may be missing. -/
def optionHarmless : Option Stmt → Bool
  | none => true
  | some s => s.harmless

end

theorem eraseAll_eq (body : List Stmt) : eraseAll body = body.map erase := by
  induction body with
  | nil => rfl
  | cons s body ih => rw [eraseAll, ih, List.map_cons]

theorem eraseOption_eq (branch : Option Stmt) : eraseOption branch = branch.map erase := by
  cases branch <;> rfl

theorem allHarmless_eq (body : List Stmt) : allHarmless body = body.all harmless := by
  induction body with
  | nil => rfl
  | cons s body ih => rw [allHarmless, ih, List.all_cons]

theorem optionHarmless_eq (branch : Option Stmt) : optionHarmless branch = branch.all harmless := by
  cases branch <;> rfl

/-- The types do not depend on what was decided. -/
theorem Typed.erase {scope : Scope} {t : Stmt} (h : t.Typed scope) : t.erase.Typed scope := by
  induction h with
  | assign found ty typed => exact .assign found ty typed
  | ret ty typed => exact .ret ty typed
  | expr typed => exact .expr typed
  | empty => exact .empty
  | block _ ih =>
    rw [Stmt.erase, eraseAll_eq]
    refine .block fun s hs => ?_
    obtain ⟨t, ht, rfl⟩ := List.mem_map.mp hs
    exact ih t ht
  | branch ty typed _ _ ihThen ihElse =>
    rw [Stmt.erase, eraseOption_eq]
    refine .branch ty typed ihThen fun s hs => ?_
    obtain ⟨t, ht, rfl⟩ := Option.map_eq_some_iff.mp hs
    exact ihElse t ht

end Stmt

namespace Program

/-- The program that evaluates every condition. -/
def erase (p : Program) : Program := ⟨p.locals, Stmt.eraseAll p.body⟩

/-- The conditions of all decided branches are harmless. -/
def harmless (p : Program) : Bool := Stmt.allHarmless p.body

theorem Typed.erase {scope : Scope} {p : Program} (h : p.Typed scope) : p.erase.Typed scope := by
  intro s hs
  rw [Program.erase, Stmt.eraseAll_eq] at hs
  obtain ⟨t, ht, rfl⟩ := List.mem_map.mp hs
  exact (h t ht).erase

end Program

/-! ### Evaluations that end alike -/

namespace Eval

variable {σ α β : Type} {I : Store σ → Prop}

/-- From stores with the invariant, the two evaluations end alike, and with the invariant. -/
def Same (I : Store σ → Prop) (x y : Eval σ α) : Prop := ∀ s, I s → y s = x s ∧ ∀ a s', x s = .ok a s' → I s'

theorem Same.pure (a : α) : Same I (Pure.pure a : Eval σ α) (Pure.pure a) :=
  fun s hs => ⟨rfl, fun b s' h => by cases h; exact hs⟩

theorem Same.orStuck (found : Option α) : Same I (Eval.orStuck found) (Eval.orStuck found) := by
  cases found with
  | some a => exact .pure a
  | none => exact fun s _ => ⟨rfl, fun b s' h => by cases h⟩

theorem Same.bind {x y : Eval σ α} {f g : α → Eval σ β} (hx : Same I x y) (hf : ∀ a, Same I (f a) (g a)) :
    Same I (x >>= f) (y >>= g) := by
  intro s hs
  obtain ⟨hxy, hkeep⟩ := hx s hs
  change EStateM.bind y g s = EStateM.bind x f s ∧ _
  unfold EStateM.bind
  rw [hxy]
  cases hr : x s with
  | ok a s₁ =>
    obtain ⟨hfg, hkeep'⟩ := hf a s₁ (hkeep a s₁ hr)
    refine ⟨hfg, fun b s' h => hkeep' b s' ?_⟩
    rwa [EStateM.bind_of_ok hr] at h
  | error fault s₁ =>
    refine ⟨rfl, fun b s' h => ?_⟩
    obtain ⟨a, s₂, ha, -⟩ := EStateM.ok_of_bind h
    rw [hr] at ha
    cases ha

/-- The invariant of an evaluation: a value for every variable. -/
def Provided (scope : Scope) (P : σ → Prop) (s : Store σ) : Prop := s.Covers scope ∧ P s.host

/-- What is safe and keeps the property of the host keeps the invariant. -/
theorem Same.refl {scope : Scope} {P : σ → Prop} {x : Eval σ α} {Q : α → Prop} (hsafe : Safe scope x Q)
    (hkeeps : Keeps P x) : Same (Provided scope P) x x := by
  intro s hs
  refine ⟨rfl, fun a s' h => ⟨?_, hkeeps s s' a h hs.2⟩⟩
  have := hsafe s hs.1
  rw [h] at this
  exact this.2

end Eval

namespace Stmt

variable {σ : Type} {host : Host σ} {I : Store σ → Prop}

theorem execAll_same : ∀ {body : List Stmt}, (∀ s ∈ body, Same I (s.exec host) (s.erase.exec host)) →
    Same I (execAll host body) (execAll host (eraseAll body))
  | [], _ => by
    unfold eraseAll execAll
    exact .pure none
  | s :: body, h => by
    unfold eraseAll execAll
    refine (h s List.mem_cons_self).bind fun result => ?_
    cases result with
    | some n => exact .pure _
    | none => exact execAll_same fun t ht => h t (List.mem_cons_of_mem s ht)

theorem execOption_same {branch : Option Stmt} (h : ∀ s ∈ branch, Same I (s.exec host) (s.erase.exec host)) :
    Same I (execOption host branch) (execOption host (eraseOption branch)) := by
  cases branch with
  | none => exact .pure none
  | some s => exact h s rfl

/-- Where a condition evaluates to what was decided, the branch does so without it. -/
theorem exec_decided {condition : Expr} {b : Bool} {s : Store σ} (h : condition.eval host s = .ok (some (.boolean b)) s)
    (thenBranch : Stmt) (elseBranch : Option Stmt) : (branch condition none thenBranch elseBranch).exec host s =
      if b then thenBranch.exec host s else execOption host elseBranch s := by
  rw [exec, bind_orStuck (·.bind Value.boolean?) h rfl]
  cases b <;> rfl

/-- A statement runs as it does when it has forgotten what was decided. -/
theorem exec_same {ω : Type} {scope : Scope} (hint : scope.Integral) {t : Stmt} (typed : t.Typed scope)
    (settled : t.Settled) (hh : t.harmless) :
    Same (Provided scope (NativeHost.Serves scope)) (t.exec (NativeHost.host (ω := ω))) (t.erase.exec NativeHost.host) := by
  have hk := NativeHost.keeps_serves (ω := ω) scope
  induction typed with
  | @assign target value found ty typed =>
    refine .refl (exec_safe _ hint (.assign found ty typed)) ?_
    unfold exec
    refine (Expr.eval_keeps hk value).bind fun _ => (Keeps.orStuck _).bind fun _ => ?_
    exact (Keeps.store hk target _).bind fun _ => .pure _
  | @ret value ty typed =>
    refine .refl (exec_safe _ hint (.ret ty typed)) ?_
    unfold exec
    exact (Expr.eval_keeps hk value).bind fun _ => (Keeps.orStuck _).bind fun _ => .pure _
  | @expr value typed =>
    refine .refl (exec_safe _ hint (.expr typed)) ?_
    unfold exec
    exact (Expr.eval_keeps hk value).bind fun _ => .pure _
  | empty => exact .pure none
  | @block body typed ih =>
    cases settled with
    | block settled =>
      rw [harmless, allHarmless_eq, List.all_eq_true] at hh
      unfold Stmt.erase exec
      exact execAll_same fun s hs => ih s hs (settled s hs) (hh s hs)
  | @branch condition decided thenBranch elseBranch ty typed _ _ ihThen ihElse =>
    cases settled with
    | branch thenSettled elseSettled =>
      rw [harmless, Bool.and_eq_true, Bool.and_eq_true, optionHarmless_eq, Option.all_eq_true] at hh
      obtain ⟨⟨hcondition, hthen⟩, helse⟩ := hh
      have hfirst := ihThen thenSettled hthen
      have hsecond := execOption_same fun s hs => ihElse s hs (elseSettled s hs) (helse s hs)
      cases hd : condition.fold.bind Value.boolean? with
      | none =>
        have hcond := Same.refl (Expr.eval_safe NativeHost.host hint typed) (Expr.eval_keeps hk condition)
        unfold Stmt.erase exec
        refine hcond.bind fun v => (Same.orStuck _).bind fun b => ?_
        cases b with
        | true => exact hfirst
        | false => exact hsecond
      | some b =>
        rw [hd] at hcondition
        intro s hs
        obtain ⟨v, hv, -, hfold⟩ := Expr.eval_harmless hint (fun v hv => NativeHost.exists_load hs.1 hs.2 hv) typed
          (by simpa using hcondition)
        cases hfold _ (Value.eq_of_boolean? hd)
        unfold Stmt.erase
        rw [exec_decided hv]
        cases b with
        | true => simpa only [exec, if_true] using hfirst s hs
        | false => simpa only [exec, Bool.false_eq_true, if_false] using hsecond s hs

end Stmt

/-! ### Runs -/

/-- The error without the address at which it happened. -/
def RuntimeError.unplaced : RuntimeError → RuntimeError
  | stackUnderflow _ => .stackUnderflow 0
  | divisionByZero _ => .divisionByZero 0
  | typeConfusion _ expected actual => .typeConfusion 0 expected actual
  | argumentCount expected actual => .argumentCount expected actual
  | host reason => .host reason
  | unboundLabel label => .unboundLabel label
  | missingReturn => .missingReturn

/-- The outcome without the addresses. -/
def Outcome.unplaced {σ : Type} : Outcome σ → Outcome σ
  | .ok n world => .ok n world
  | .error e world => .error e.unplaced world

/-- A fault shows alike in all code, but for the address. -/
theorem Fault.Reported.unplaced_eq {chunk chunk' : Chunk} {fault : Fault} {e e' : RuntimeError} (h : fault.Reported chunk e)
    (h' : fault.Reported chunk' e') : e.unplaced = e'.unplaced := by
  cases fault with
  | divisionByZero =>
    obtain ⟨address, rfl, -⟩ := h
    obtain ⟨address', rfl, -⟩ := h'
    rfl
  | wrongResult expected actual =>
    obtain ⟨address, function, argc, rfl, -⟩ := h
    obtain ⟨address', function', argc', rfl, -⟩ := h'
    rfl
  | host error =>
    cases h
    cases h'
    rfl
  | stuck => cases h

namespace Program

theorem Agrees.unplaced_eq {σ : Type} {chunk chunk' : Chunk} {result : EStateM.Result Fault σ Int64} {o o' : Outcome σ}
    (h : Agrees chunk result o) (h' : Agrees chunk' result o') : Outcome.unplaced o = Outcome.unplaced o' := by
  cases result with
  | ok n world =>
    cases h
    cases h'
    rfl
  | error fault world =>
    obtain ⟨e, rfl, he⟩ := h
    obtain ⟨e', rfl, he'⟩ := h'
    simp only [Outcome.unplaced, he.unplaced_eq he']

variable {ω : Type} {scope : Scope} {p : Program} {args : List Int64} {last : NativeHost ω} {locals : Nat}

theorem eval_erase (hint : scope.Integral) (typed : p.Typed scope) (settled : p.Settled) (hh : p.harmless)
    (hs : Store.Covers scope ⟨(args.map .integer).toArray, Array.replicate locals (.integer 0), last⟩)
    (serves : last.Serves scope) :
    p.erase.eval NativeHost.host locals args last = p.eval NativeHost.host locals args last := by
  rw [harmless, Stmt.allHarmless_eq, List.all_eq_true] at hh
  have hsame : Same (Provided scope (NativeHost.Serves scope)) (Stmt.execAll (NativeHost.host (ω := ω)) p.body) _ :=
    Stmt.execAll_same fun t ht => Stmt.exec_same hint (typed t ht) (settled t ht) (hh t ht)
  unfold eval
  rw [erase, (hsame _ ⟨hs, serves⟩).1]

/-- The code of a program and the code that evaluates all conditions end alike. -/
theorem runs_erase {signature : Signature} {hostScope : HostScope} (valid : signature.validate = .ok ())
    (typed : p.Typed ((Scope.bind signature hostScope).declareAll p.locals)) (settled : p.Settled) (hh : p.harmless)
    (serves : last.Serves ((Scope.bind signature hostScope).declareAll p.locals))
    (hargs : args.length = signature.params.length) {fuel fuel' : Nat} (hfuel : p.chunk.code.length ≤ fuel)
    (hfuel' : p.erase.chunk.code.length ≤ fuel') :
    ∃ o o', Artifact.run ⟨signature.params, p.locals.length, p.chunk⟩ NativeHost.host fuel args last = some o ∧
      Artifact.run ⟨signature.params, p.locals.length, p.erase.chunk⟩ NativeHost.host fuel' args last = some o' ∧
      Outcome.unplaced o = Outcome.unplaced o' := by
  have hint : ((Scope.bind signature hostScope).declareAll p.locals).Integral := integral_of_validate valid
  have hs : Store.Covers ((Scope.bind signature hostScope).declareAll p.locals) _ := covers_initial last hargs
  obtain ⟨o, hrun, hagrees⟩ := run_agrees hint typed NativeHost.host hs hargs hfuel
  obtain ⟨o', hrun', hagrees'⟩ := run_agrees hint typed.erase NativeHost.host hs hargs hfuel'
  rw [eval_erase hint typed settled hh hs serves] at hagrees'
  exact ⟨o, o', hrun, hrun', hagrees.unplaced_eq hagrees'⟩

end Program

/-- Dead branches may be left out. If the conditions of the decided branches are harmless, the code of a
    program and the code that evaluates all conditions end alike on every native host that the program was
    compiled against, at any later time: with the same result, or with the same error but for the address,
    and with the same last state of the host, so with the same globals and the same journal of calls,
    whatever the functions of the host write down. -/
theorem run_erased {ω : Type} {text : String} {signature : Signature} {artifact : Artifact} {world : ω}
    {first : NativeHost ω} {history : List (NativeHost.Request ω × NativeHost.Reply)}
    (made : NativeHost.Session (.empty world) history first)
    (h : compile text signature first.scope = .ok artifact) :
    ∃ p scope, Program.read (.bind signature first.scope) text = .ok (p, scope) ∧ artifact.chunk = p.chunk ∧
      (p.harmless → ∀ more last, NativeHost.Session first more last →
        ∀ args : List Int64, args.length = artifact.params.length →
        ∀ fuel fuel', p.chunk.code.length ≤ fuel → p.erase.chunk.code.length ≤ fuel' →
          ∃ o o', artifact.run NativeHost.host fuel args last = some o ∧
            { artifact with chunk := p.erase.chunk }.run NativeHost.host fuel' args last = some o' ∧
            Outcome.unplaced o = Outcome.unplaced o') := by
  obtain ⟨valid, p, hread, rfl⟩ := compile_eq_ok h
  refine ⟨p, _, hread, rfl, fun hh more last later args hargs fuel fuel' hfuel hfuel' => ?_⟩
  obtain ⟨typed, settled⟩ := Program.typed_of_read hread
  have serves := later.extends.serves (made.wellNamed.serves signature p.locals)
  exact Program.runs_erase valid typed settled hh serves hargs hfuel hfuel'

/-- A host with one global and a function that keeps a journal. -/
def NativeHost.recorder : NativeHost Journal :=
  ⟨⟨[("g", ⟨0⟩)], [("f", ⟨⟨0⟩, ⟨[.integer], .void⟩, by decide⟩)]⟩, [5], [Stock.silent.native 0 "f"], {}⟩

theorem NativeHost.made_recorder : Session (.empty {})
    [(.registerFunction "f" ⟨[.integer], .void⟩ (Stock.silent.native 0 "f"), .function ⟨0⟩),
      (.registerGlobal "g" 5, .global ⟨0⟩)] recorder :=
  .next (.next .start rfl) rfl

/-- A branch that one operand alone decides, around one that is dead. -/
def nestedBranches : String :=
  "if (g > a || 4 / 2 == 2) \x7b f(g); if (false) return 1; else g = g / a; \x7d return g;"

/-- On the argument zero both codes end with a division by zero, behind a call. -/
theorem run_erased_recorder :
    ∃ artifact, compile nestedBranches ⟨[⟨"a", .integer⟩], .integer⟩ NativeHost.recorder.scope = .ok artifact ∧
      ∃ p scope,
        Program.read (.bind ⟨[⟨"a", .integer⟩], .integer⟩ NativeHost.recorder.scope) nestedBranches = .ok (p, scope) ∧
        p.harmless ∧ ∀ n : Int64, ∃ fuel o o', artifact.run NativeHost.host fuel [n] NativeHost.recorder = some o ∧
          { artifact with chunk := p.erase.chunk }.run NativeHost.host fuel [n] NativeHost.recorder = some o' ∧
          Outcome.unplaced o = Outcome.unplaced o' := by
  refine Except.exists_eq_ok (by decide +kernel) fun artifact h => ?_
  obtain ⟨p, scope, hread, hchunk, hrun⟩ := run_erased NativeHost.made_recorder h
  have hh : (Program.read (.bind ⟨[⟨"a", .integer⟩], .integer⟩ NativeHost.recorder.scope) nestedBranches).toOption.any
      (·.1.harmless) = true := by decide +kernel
  rw [hread] at hh
  refine ⟨p, scope, hread, hh, fun n => ⟨p.chunk.code.length + p.erase.chunk.code.length, ?_⟩⟩
  refine hrun hh _ _ .start [n] ?_ _ _ (Nat.le_add_right _ _) (Nat.le_add_left _ _)
  obtain ⟨-, q, -, rfl⟩ := compile_eq_ok h
  rfl

end HostScript
