import HostScript.Proofs.Machine.Simulation
import HostScript.Proofs.Scoping

/-! Compiled programs run as they evaluate, and never go wrong.

The code of a statement starts and ends with an empty stack, and a return in it ends the run; so the
code of a program takes a run through ready states to its end. As the machine is deterministic, these
are all the states that the run has. -/

namespace HostScript

open Machine

variable {σ : Type} {host : Host σ} {chunk : Chunk}

/-! ### Statements -/

namespace Stmt

/-- Where a statement leads: a return ends the run, else the stack is empty behind the statement. -/
def exit (ip : Nat) : Option Int64 → Store σ → Machine σ ⊕ Outcome σ
  | none, s => .inl (s.machine ip [])
  | some n, s => .inr (.ok n s.host)

theorem simulates_store (target : Variable) {address : Nat} (hi : chunk.code[address]? = some target.store)
    (value : Value) (s : Store σ) :
    Simulates host chunk (address + 1) (s.machine address [value])
      (fun _ s => .inl (s.machine (address + 1) [])) (Eval.store host target value s) := by
  cases hb : target.binding with
  | parameter index =>
    rw [Variable.store, hb] at hi
    simp only [Eval.store, hb]
    split
    next hlt => exact .one ⟨_, hi, hlt, value, [], rfl⟩ (step_storeParam hi hlt rfl)
    next => exact fun hne => absurd rfl hne
  | localSlot slot =>
    rw [Variable.store, hb] at hi
    simp only [Eval.store, hb]
    split
    next hlt => exact .one ⟨_, hi, hlt, value, [], rfl⟩ (step_storeLocal hi hlt rfl)
    next => exact fun hne => absurd rfl hne
  | global handle =>
    rw [Variable.store, hb] at hi
    simp only [Eval.store, hb]
    refine .orStuck_bind fun n hn => ?_
    obtain rfl : value = .integer n := by
      cases value with
      | integer m =>
        cases hn
        rfl
      | boolean b => cases hn
    have hs : (s.machine address [.integer n]).step host chunk = _ := step_storeGlobal hi rfl
    simp only [Store.machine] at hs
    refine .onHost ⟨_, hi, n, [], rfl⟩ (fun u world h => ?_) fun e world h => ?_
    · rw [h] at hs
      exact hs
    · rw [h] at hs
      exact hs

variable {last ip : Nat} {m : Machine σ}

/-- What stands behind a statement is reached only if the statement does not return. -/
theorem simulates_exit {r : EStateM.Result Fault (Store σ) (Option Int64)} (h : Simulates host chunk ip m (exit ip) r)
    (hip : ip ≤ last) (hgo : ∀ s : Store σ, r = .ok none s →
      Simulates host chunk last (s.machine ip []) (exit last) (.ok none s)) :
    Simulates host chunk last m (exit last) r := by
  rcases r with ⟨_ | n, s⟩ | ⟨fault, s⟩
  · obtain ⟨n, hn, hg⟩ := h
    exact .after hg hn (hgo s rfl)
  · obtain ⟨k, hk, hg⟩ := h
    exact ⟨k, by omega, hg⟩
  · intro hne
    obtain ⟨k, hk, hg⟩ := h hne
    exact ⟨k, by omega, hg⟩

/-- One statement behind another. -/
theorem simulates_then {x y : Eval σ (Option Int64)} {s : Store σ} (hx : Simulates host chunk ip m (exit ip) (x s))
    (hip : ip ≤ last)
    (hy : ∀ s₁, x s = .ok none s₁ → Simulates host chunk last (s₁.machine ip []) (exit last) (y s₁)) :
    Simulates host chunk last m (exit last)
      ((do match ← x with
        | some n => return some n
        | none => y) s) := by
  change Simulates host chunk last m (exit last) (EStateM.bind x _ s)
  unfold EStateM.bind
  cases hr : x s with
  | ok result s₁ =>
    rw [hr] at hx
    obtain ⟨k, hk, hg⟩ := hx
    cases result with
    | none => exact .after hg hk (hy s₁ hr)
    | some n => exact ⟨k, by omega, hg⟩
  | error fault s₁ =>
    rw [hr] at hx
    intro hne
    obtain ⟨k, hk, hg⟩ := hx hne
    exact ⟨k, by omega, hg⟩

variable {scope : Scope}

mutual

theorem simulates (hint : scope.Integral) : ∀ (t : Stmt) (_ : t.Typed scope) {address : Nat} {label : Label}
    (_ : (t.fragment address label).Placed chunk address label) (s : Store σ),
    Simulates host chunk (address + (t.fragment address label).code.length) (s.machine address [])
      (exit (address + (t.fragment address label).code.length)) (t.exec host s)
  | declare names, ht, address, label, hp, s => by cases ht
  | assign target value, ht, address, label, hp, s => by
    unfold fragment at hp ⊢
    unfold exec
    simp only [List.length_append, List.length_singleton, ← Nat.add_assoc]
    refine .bind (value.simulates ⟨hp.code.left, hp.targets⟩ [] s) (by omega) fun v s₁ _ =>
      .orStuck_bind fun a ha => ?_
    rw [ha]
    exact .map (simulates_store target (hp.code.right rfl).head a s₁)
  | ret value, ht, address, label, hp, s => by
    unfold fragment at hp ⊢
    unfold exec
    simp only [List.length_append, List.length_singleton, ← Nat.add_assoc]
    have hi := (hp.code.right rfl).head
    refine .bind (value.simulates ⟨hp.code.left, hp.targets⟩ [] s) (by omega) fun v s₁ _ =>
      .orStuck_bind fun n hn => ?_
    rw [Value.eq_of_integer? hn]
    exact .one ⟨_, hi, n, rfl⟩ (step_ret hi rfl)
  | expr value, ht, address, label, hp, s => by
    unfold fragment at hp ⊢
    unfold exec
    simp only [List.length_append, ← Nat.add_assoc]
    cases ht with
    | expr typed =>
      refine .bind (value.simulates ⟨hp.code.left, hp.targets⟩ [] s) (by omega) fun v s₁ hv => ?_
      have hsome := Expr.isSome_of_eval host hint typed hv
      have hpop : Within (if value.ty.isValue then [.pop] else []) (chunk.code[·]?) _ := hp.code.right rfl
      cases v with
      | some a =>
        have hvalue : value.ty.isValue := hsome.symm
        rw [if_pos hvalue] at hpop ⊢
        exact .one ⟨_, hpop.head, a, [], rfl⟩ (step_pop hpop.head rfl)
      | none =>
        have hvoid : ¬value.ty.isValue := by simp [← hsome]
        rw [if_neg hvoid]
        exact .here rfl (Nat.le_refl _)
  | empty, ht, address, label, hp, s => by
    unfold exec
    exact .here rfl (Nat.le_refl _)
  | block body, ht, address, label, hp, s => by
    cases ht with
    | block typed =>
      unfold exec
      simp only [fragment] at hp ⊢
      exact simulates_all hint body typed hp s
  | branch _ (some true) thenBranch _, ht, address, label, hp, s => by
    cases ht with
    | branch _ _ thenTyped _ =>
      simp only [fragment, exec] at hp ⊢
      exact simulates hint thenBranch thenTyped hp s
  | branch _ (some false) _ elseBranch, ht, address, label, hp, s => by
    cases ht with
    | branch _ _ _ elseTyped =>
      simp only [fragment, exec] at hp ⊢
      exact simulates_option hint elseBranch elseTyped hp s
  | branch condition none thenBranch none, ht, address, label, hp, s => by
    unfold fragment at hp ⊢
    unfold exec
    simp only [List.length_append, List.length_singleton, ← Nat.add_assoc]
    have hfork : Within [.jumpUnless label] (chunk.code[·]?) _ := hp.code.left.right rfl
    cases ht with
    | branch _ _ thenTyped _ =>
      refine .bind (condition.simulates ⟨hp.code.left.left, hp.targets.tail.left⟩ [] s) (by omega) fun v s₁ _ =>
        .orStuck_bind fun b hb => ?_
      rw [Value.eq_of_boolean? hb]
      cases b with
      | true =>
        exact .jumpUnless_true hfork.head hp.targets.head (simulates hint thenBranch thenTyped
          ⟨hp.code.right (by simp [Nat.add_assoc]), hp.targets.tail.right rfl⟩ s₁)
      | false => exact .jumpUnless_false hfork.head hp.targets.head (by omega) (.here rfl (Nat.le_refl _))
  | branch condition none thenBranch (some elseBranch), ht, address, label, hp, s => by
    unfold fragment at hp ⊢
    unfold exec
    simp only [List.length_append, List.length_singleton, ← Nat.add_assoc]
    have hfork : Within [.jumpUnless label] (chunk.code[·]?) _ := hp.code.left.left.left.right rfl
    have hleave : Within [.jump _] (chunk.code[·]?) _ := hp.code.left.right rfl
    simp only [List.length_append, List.length_singleton, ← Nat.add_assoc] at hleave
    have hout := (hp.targets.tail.right rfl).head
    simp only [List.length_append, ← Nat.add_assoc] at hout
    cases ht with
    | branch _ _ thenTyped elseTyped =>
      refine .bind (condition.simulates ⟨hp.code.left.left.left.left, hp.targets.tail.left.left⟩ [] s) (by omega)
        fun v s₁ _ => .orStuck_bind fun b hb => ?_
      rw [Value.eq_of_boolean? hb]
      cases b with
      | true =>
        refine .jumpUnless_true hfork.head hp.targets.head ?_
        refine simulates_exit (simulates hint thenBranch thenTyped
          ⟨hp.code.left.left.right (by simp [Nat.add_assoc]), hp.targets.tail.left.right rfl⟩ s₁) (by omega) fun s₂ _ => ?_
        exact .jump hleave.head hout (by omega) (.here rfl (Nat.le_refl _))
      | false =>
        refine .jumpUnless_false hfork.head hp.targets.head (by omega) ?_
        simp only [execOption]
        exact simulates hint elseBranch (elseTyped elseBranch rfl)
          ⟨hp.code.right (by simp only [List.length_append, List.length_singleton, ← Nat.add_assoc]),
            (hp.targets.tail.right (by simp only [List.length_append, ← Nat.add_assoc])).tail⟩ s₁

theorem simulates_all (hint : scope.Integral) : ∀ (body : List Stmt) (_ : ∀ t ∈ body, t.Typed scope) {address : Nat}
    {label : Label} (_ : (fragments body address label).Placed chunk address label) (s : Store σ),
    Simulates host chunk (address + (fragments body address label).code.length) (s.machine address [])
      (exit (address + (fragments body address label).code.length)) (execAll host body s)
  | [], ht, address, label, hp, s => by
    unfold execAll
    exact .here rfl (Nat.le_refl _)
  | t :: body, ht, address, label, hp, s => by
    unfold fragments at hp ⊢
    unfold execAll
    simp only [List.length_append, ← Nat.add_assoc]
    exact simulates_then (simulates hint t (ht t List.mem_cons_self) ⟨hp.code.left, hp.targets.left⟩ s) (by omega)
      fun s₁ _ => simulates_all hint body (fun u hu => ht u (List.mem_cons_of_mem t hu))
        ⟨hp.code.right rfl, hp.targets.right rfl⟩ s₁

theorem simulates_option (hint : scope.Integral) : ∀ (branch : Option Stmt) (_ : ∀ t ∈ branch, t.Typed scope)
    {address : Nat} {label : Label} (_ : (optionFragment branch address label).Placed chunk address label) (s : Store σ),
    Simulates host chunk (address + (optionFragment branch address label).code.length) (s.machine address [])
      (exit (address + (optionFragment branch address label).code.length)) (execOption host branch s)
  | none, ht, address, label, hp, s => by
    unfold execOption
    exact .here rfl (Nat.le_refl _)
  | some t, ht, address, label, hp, s => by
    simp only [optionFragment, execOption] at hp ⊢
    exact simulates hint t (ht t rfl) hp s

end

/-- Statements that are all passed are each passed. -/
theorem exec_eq_none_of_mem {t : Stmt} : ∀ {body : List Stmt} {s s' : Store σ}, execAll host body s = .ok none s' →
    t ∈ body → ∃ s₁ s₂, t.exec host s₁ = .ok none s₂
  | u :: body, s, s', h, ht => by
    unfold execAll at h
    obtain ⟨result, s₁, hu, h⟩ := EStateM.ok_of_bind h
    cases result with
    | some n => cases h
    | none =>
      rcases List.mem_cons.mp ht with rfl | ht
      · exact ⟨s, s₁, hu⟩
      · exact exec_eq_none_of_mem h ht

theorem exec_ret_ne_none {value : Expr} {s s' : Store σ} : (ret value).exec host s ≠ .ok none s' := by
  intro h
  unfold exec at h
  obtain ⟨v, s₁, -, h⟩ := EStateM.ok_of_bind h
  obtain ⟨n, s₂, -, h⟩ := EStateM.ok_of_bind h
  cases h

end Stmt

/-! ### Programs -/

namespace Program

theorem placed_chunk (p : Program) : (Stmt.fragments p.body 0 0).Placed p.chunk 0 0 where
  code i hi := by simp [code_chunk, List.getElem?_append_left hi]
  targets i hi := by
    simp only [labels_chunk, Chunk.target?, List.getElem?_map, Nat.zero_add]
    cases (Stmt.fragments p.body 0 0).targets[i]? <;> rfl

/-- Behind the statements the run ends with zero; it does not get there if the last one is a return. -/
theorem simulates_tail (p : Program) {s s' : Store σ} (h : Stmt.execAll host p.body s = .ok none s') :
    Simulates host p.chunk p.chunk.code.length (s'.machine (Stmt.fragments p.body 0 0).code.length [])
      (fun r s => .inr (.ok (r.getD 0) s.host)) (.ok (none : Option Int64) s') := by
  have hlast : ¬p.body.getLast?.any Stmt.isRet := by
    intro hany
    cases hl : p.body.getLast? with
    | none => simp [hl] at hany
    | some t =>
      obtain ⟨s₁, s₂, ht⟩ := Stmt.exec_eq_none_of_mem h (List.mem_of_getLast? hl)
      cases t with
      | ret value => exact Stmt.exec_ret_ne_none ht
      | _ => simp [hl, Stmt.isRet] at hany
  have hcode : p.chunk.code = (Stmt.fragments p.body 0 0).code ++ [.push (.integer 0), .ret] := by
    simp [code_chunk, tail, hlast]
  have htail : Within [.push (.integer 0), .ret] (p.chunk.code[·]?) (Stmt.fragments p.body 0 0).code.length := by
    intro i hi
    simp only [hcode, List.getElem?_append_right (Nat.le_add_right _ i), Nat.add_sub_cancel_left]
  exact .push htail.head (.one ⟨_, htail.tail.head, 0, rfl⟩ (step_ret htail.tail.head rfl) (by simp [Store.machine, hcode]))

theorem simulates {scope : Scope} (hint : scope.Integral) {p : Program} (hp : p.Typed scope) (host : Host σ)
    (s : Store σ) :
    Simulates host p.chunk p.chunk.code.length (s.machine 0 []) (fun r s => .inr (.ok (r.getD 0) s.host))
      (Stmt.execAll host p.body s) := by
  have h : Simulates host p.chunk _ _ _ (Stmt.execAll host p.body s) :=
    Stmt.simulates_all hint p.body hp p.placed_chunk s
  have hle : (Stmt.fragments p.body 0 0).code.length ≤ p.chunk.code.length := by simp [code_chunk]
  rw [Nat.zero_add] at h
  cases hr : Stmt.execAll host p.body s with
  | ok result s' =>
    rw [hr] at h
    obtain ⟨n, hn, hg⟩ := h
    cases result with
    | none => exact .after hg hn (p.simulates_tail hr)
    | some v => exact ⟨n, Nat.le_trans hn hle, hg⟩
  | error fault s' =>
    rw [hr] at h
    intro hne
    obtain ⟨n, hn, hg⟩ := h hne
    exact ⟨n, Nat.le_trans hn hle, hg⟩

/-- The outcome of a run is that of an evaluation: the same value or an error that shows the fault, and
    the same state of the host. -/
def Agrees (chunk : Chunk) : EStateM.Result Fault σ Int64 → Outcome σ → Prop
  | .ok n world, o => o = .ok n world
  | .error fault world, o => ∃ e, o = .error e world ∧ fault.Reported chunk e

/-- The run of a typed program goes to its end, and ends as the evaluation does. -/
theorem goes {scope : Scope} (hint : scope.Integral) {p : Program} (hp : p.Typed scope) (host : Host σ)
    {params : List Parameter} {locals : Nat} {args : List Int64} {world : σ}
    (hs : Store.Covers scope ⟨(args.map .integer).toArray, Array.replicate locals (.integer 0), world⟩) :
    ∃ n ≤ p.chunk.code.length, ∃ o, Goes host p.chunk n (.initial ⟨params, locals, p.chunk⟩ args world) (.inr o) ∧
      Agrees p.chunk (p.eval host locals args world) o := by
  have hsafe := Stmt.execAll_safe host (fun t ht => Stmt.exec_safe host hint (hp t ht)) _ hs
  have h := simulates hint hp host ⟨(args.map .integer).toArray, Array.replicate locals (.integer 0), world⟩
  unfold eval
  cases hr : Stmt.execAll host p.body ⟨(args.map .integer).toArray, Array.replicate locals (.integer 0), world⟩ with
  | ok result s' =>
    rw [hr] at h
    obtain ⟨n, hn, hg⟩ := h
    exact ⟨n, hn, _, hg, rfl⟩
  | error fault s' =>
    rw [hr] at h hsafe
    obtain ⟨n, hn, e, hg, he⟩ := h hsafe
    exact ⟨n, hn, _, hg, e, rfl, he⟩

/-- No more steps are needed than there are instructions. -/
theorem run_agrees {scope : Scope} (hint : scope.Integral) {p : Program} (hp : p.Typed scope) (host : Host σ)
    {params : List Parameter} {locals : Nat} {args : List Int64} {world : σ}
    (hs : Store.Covers scope ⟨(args.map .integer).toArray, Array.replicate locals (.integer 0), world⟩)
    (hargs : args.length = params.length) {fuel : Nat} (hfuel : p.chunk.code.length ≤ fuel) :
    ∃ o, Artifact.run ⟨params, locals, p.chunk⟩ host fuel args world = some o ∧
      Agrees p.chunk (p.eval host locals args world) o := by
  obtain ⟨n, hn, o, hg, hagrees⟩ := goes hint hp host hs
  refine ⟨o, ?_, hagrees⟩
  rw [Artifact.run, if_pos hargs]
  exact hg.runFor_eq (Nat.le_trans hn hfuel)

end Program

/-! ### Artifacts -/

section Artifacts

variable {text : String} {signature : Signature} {hostScope : HostScope} {artifact : Artifact}

theorem goes_of_compile (h : compile text signature hostScope = .ok artifact) :
    ∃ p scope, Program.read (.bind signature hostScope) text = .ok (p, scope) ∧
      ∀ {σ : Type} (host : Host σ) {args : List Int64} (world : σ), args.length = artifact.params.length →
        ∃ n ≤ artifact.chunk.code.length, ∃ o, Goes host artifact.chunk n (.initial artifact args world) (.inr o) ∧
          Program.Agrees artifact.chunk (p.eval host p.locals.length args world) o := by
  obtain ⟨hv, p, hread, rfl⟩ := compile_eq_ok h
  refine ⟨p, _, hread, fun host args world hargs => ?_⟩
  exact Program.goes (integral_of_validate hv) (Program.typed_of_read hread).1 host (covers_initial world hargs)

/-- A compiled program runs as it evaluates: with the same result, or an error that shows the fault of
    the evaluation, and with the same last state of the host, whatever the host is. -/
theorem run_agrees_eval (h : compile text signature hostScope = .ok artifact) :
    ∃ p scope, Program.read (.bind signature hostScope) text = .ok (p, scope) ∧
      ∀ (σ : Type) (host : Host σ) (args : List Int64) (world : σ), args.length = artifact.params.length →
        ∀ fuel, artifact.chunk.code.length ≤ fuel →
          ∃ outcome, artifact.run host fuel args world = some outcome ∧
            Program.Agrees artifact.chunk (p.eval host p.locals.length args world) outcome := by
  obtain ⟨hv, p, hread, rfl⟩ := compile_eq_ok h
  refine ⟨p, _, hread, fun σ host args world hargs fuel hfuel => ?_⟩
  have typed := (Program.typed_of_read hread).1
  exact Program.run_agrees (integral_of_validate hv) typed host (covers_initial world hargs) hargs hfuel

/-- A branch, a call, a division and a global, on the arguments seven and zero. -/
theorem run_agrees_eval_branch :
    ∃ artifact, compile "if (a > 0 || g == 1) g = f(a, true) / b; return g;"
        ⟨[⟨"a", .integer⟩, ⟨"b", .integer⟩], .integer⟩
        ⟨[("g", ⟨0⟩)], [("f", ⟨⟨0⟩, ⟨[.integer, .boolean], .integer⟩, by decide⟩)]⟩ = .ok artifact ∧
      ∃ p scope, Program.read
          (.bind ⟨[⟨"a", .integer⟩, ⟨"b", .integer⟩], .integer⟩
            ⟨[("g", ⟨0⟩)], [("f", ⟨⟨0⟩, ⟨[.integer, .boolean], .integer⟩, by decide⟩)]⟩)
          "if (a > 0 || g == 1) g = f(a, true) / b; return g;" = .ok (p, scope) ∧
        ∀ (σ : Type) (host : Host σ) (world : σ),
          ∃ outcome, artifact.run host artifact.chunk.code.length [7, 0] world = some outcome ∧
            Program.Agrees artifact.chunk (p.eval host p.locals.length [7, 0] world) outcome := by
  refine Except.exists_eq_ok (by decide +kernel) fun artifact h => ?_
  obtain ⟨p, scope, hread, hrun⟩ := run_agrees_eval h
  refine ⟨p, scope, hread, fun σ host world => hrun σ host [7, 0] world ?_ _ (Nat.le_refl _)⟩
  obtain ⟨-, q, -, rfl⟩ := compile_eq_ok h
  rfl

theorem ready_of_visits (h : compile text signature hostScope = .ok artifact) {σ : Type} {host : Host σ}
    {args : List Int64} {world : σ} (hargs : args.length = artifact.params.length) {m : Machine σ}
    (hv : Visits host artifact.chunk (.initial artifact args world) m) : m.Ready artifact.chunk := by
  obtain ⟨p, scope, -, hrun⟩ := goes_of_compile h
  obtain ⟨n, -, outcome, hg, -⟩ := hrun host world hargs
  exact hg.ready hv

theorem raises_of_run (h : compile text signature hostScope = .ok artifact) {σ : Type} {host : Host σ} {fuel : Nat}
    {args : List Int64} {world last : σ} {e : RuntimeError} (he : artifact.run host fuel args world = some (.error e last)) :
    (args.length ≠ artifact.params.length ∧ e = .argumentCount artifact.params.length args.length ∧ last = world) ∨
    (args.length = artifact.params.length ∧ ∃ m, Visits host artifact.chunk (.initial artifact args world) m ∧
      m.Raises host artifact.chunk e last) := by
  unfold Artifact.run at he
  split at he
  next hargs =>
    obtain ⟨m, hv, hstep⟩ := visits_of_runFor .start he
    exact .inr ⟨hargs, m, hv, raises_of_step (ready_of_visits h hargs hv) hstep⟩
  next hargs =>
    cases he
    exact .inl ⟨hargs, rfl, rfl⟩

/-- The errors of a compiled program. Every state of a run is ready, so each instruction finds its
    operands, slots and targets, and a return finds one integer and nothing else. A run ends with an error
    only if the number of arguments is wrong, or from a division by zero, a call without a result of the
    declared type, or an error that a method of the host returned. -/
theorem run_goes_well (h : compile text signature hostScope = .ok artifact) {σ : Type} (host : Host σ)
    (args : List Int64) (world : σ) :
    (args.length = artifact.params.length → ∀ m, Visits host artifact.chunk (.initial artifact args world) m →
      m.Ready artifact.chunk) ∧
    ∀ fuel e last, artifact.run host fuel args world = some (.error e last) →
      (args.length ≠ artifact.params.length ∧ e = .argumentCount artifact.params.length args.length ∧ last = world) ∨
      (args.length = artifact.params.length ∧ ∃ m, Visits host artifact.chunk (.initial artifact args world) m ∧
        m.Raises host artifact.chunk e last) :=
  ⟨fun hargs _ hv => ready_of_visits h hargs hv, fun _ _ _ he => raises_of_run h he⟩

/-- A call whose result is not used and a return behind it, on any host without a state. -/
theorem run_goes_well_call :
    ∃ artifact, compile "if (a > 0) \x7b f(); \x7d return g / a;" ⟨[⟨"a", .integer⟩], .integer⟩
        ⟨[("g", ⟨0⟩)], [("f", ⟨⟨0⟩, ⟨[], .boolean⟩, by decide⟩)]⟩ = .ok artifact ∧
      ∀ (host : Host Unit) (e : RuntimeError), artifact.run host 20 [1] () = some (.error e ()) →
        ∃ m, Visits host artifact.chunk (.initial artifact [1] ()) m ∧ m.Raises host artifact.chunk e () := by
  refine Except.exists_eq_ok (by decide +kernel) fun artifact h host e he => ?_
  rcases (run_goes_well h host [1] ()).2 20 e () he with ⟨hne, -⟩ | ⟨-, hraises⟩
  · obtain ⟨-, q, -, rfl⟩ := compile_eq_ok h
    exact absurd rfl hne
  · exact hraises

/-- On a host whose methods do not return such an error themselves, no run of a compiled program ends with
    a stack underflow, an unbound label, a missing return or a missing slot. -/
theorem run_lacks_nothing (h : compile text signature hostScope = .ok artifact) {σ : Type} {host : Host σ}
    (sound : ∀ e, Lacks e → ¬Fails host e) (fuel : Nat) (args : List Int64) (world : σ) {e : RuntimeError} {last : σ}
    (he : artifact.run host fuel args world = some (.error e last)) : ¬Lacks e := by
  intro lacks
  rcases raises_of_run h he with ⟨-, rfl, -⟩ | ⟨-, m, -, raises⟩
  · cases lacks
  · exact sound e lacks (raises.fails_of_lacks lacks)

end Artifacts
end HostScript
