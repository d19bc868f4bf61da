import HostScript.Proofs.Code.Fragment
import HostScript.Proofs.Evaluation
import HostScript.Proofs.Machine.Path

/-! The code of a tree does what the evaluation of the tree does.

Where the fragment of an expression stands in the code, the machine goes from its first instruction to
the one behind it and has then put the value of the expression on whatever the stack held; a fragment of
a statement leaves the stack empty, or ends the run if it returns. If the evaluation ends with a fault,
so does the run. The host sees the same requests in both. All jumps go forward, so a fragment takes no
more steps than it has instructions: a simulation counts its steps against the address it ends at. -/

namespace HostScript

/-- From the index `start` on, looking up gives the elements of the list. -/
def Within {α : Type} (part : List α) (look : Nat → Option α) (start : Nat) : Prop :=
  ∀ i, i < part.length → look (start + i) = part[i]?

namespace Within

variable {α : Type} {a b : List α} {x : α} {look : Nat → Option α} {start : Nat}

theorem left (h : Within (a ++ b) look start) : Within a look start := by
  intro i hi
  rw [h i (by simp; omega), List.getElem?_append_left hi]

theorem right (h : Within (a ++ b) look start) {k : Nat} (hk : k = start + a.length) : Within b look k := by
  intro i hi
  have := h (a.length + i) (by simp; omega)
  rw [List.getElem?_append_right (by omega), Nat.add_sub_cancel_left, ← Nat.add_assoc, ← hk] at this
  exact this

theorem head (h : Within (x :: a) look start) : look start = some x := h 0 (by simp)

theorem tail (h : Within (x :: a) look start) : Within a look (start + 1) := by
  have h : Within ([x] ++ a) look start := h
  exact h.right rfl

end Within

/-- The fragment stands in the chunk, its code at the address and its targets from the label on. -/
structure Fragment.Placed (f : Fragment) (chunk : Chunk) (address : Nat) (label : Label) : Prop where
  code : Within f.code (chunk.code[·]?) address
  targets : Within f.targets chunk.target? label

/-- The error in which a fault of the evaluation shows: it names the address of the instruction that
    failed, and an error of the host is passed on. -/
def Fault.Reported (chunk : Chunk) : Fault → RuntimeError → Prop
  | .divisionByZero, e => ∃ address, e = .divisionByZero address ∧ chunk.code[address]? = some (.strict .div)
  | .wrongResult expected actual, e => ∃ address function argc, e = .typeConfusion address expected actual ∧
      chunk.code[address]? = some (.call function argc expected)
  | .host error, e => e = error
  | .stuck, _ => False

variable {σ : Type}

/-- The machine with the variables and the host of a store. -/
def Store.machine (s : Store σ) (ip : Nat) (stack : List Value) : Machine σ :=
  ⟨ip, stack, s.params, s.locals, s.host⟩

namespace Machine

/-- From `m` the run goes to the target that the result of an evaluation sets, or ends with the error of
    its fault, in no more steps than there are addresses from that of `m` to `last`. Of an evaluation that
    is stuck nothing is said. -/
def Simulates {α : Type} (host : Host σ) (chunk : Chunk) (last : Nat) (m : Machine σ)
    (target : α → Store σ → Machine σ ⊕ Outcome σ) : EStateM.Result Fault (Store σ) α → Prop
  | .ok a s => ∃ n, n + m.ip ≤ last ∧ Goes host chunk n m (target a s)
  | .error fault s => fault ≠ .stuck →
      ∃ n, n + m.ip ≤ last ∧ ∃ e, Goes host chunk n m (.inr (.error e s.host)) ∧ fault.Reported chunk e

namespace Simulates

variable {α β : Type} {host : Host σ} {chunk : Chunk} {last ip : Nat} {m m₁ : Machine σ}
  {target : α → Store σ → Machine σ ⊕ Outcome σ} {target' : β → Store σ → Machine σ ⊕ Outcome σ}

theorem here {a : α} {s : Store σ} (h : target a s = .inl m) (hl : m.ip ≤ last) :
    Simulates host chunk last m target (.ok a s) :=
  ⟨0, by omega, h ▸ .here m⟩

/-- What comes behind a state that the run goes to. -/
theorem after {r : EStateM.Result Fault (Store σ) α} {k : Nat} (hg : Goes host chunk k m (.inl m₁))
    (hk : k + m.ip ≤ m₁.ip) (h : Simulates host chunk last m₁ target r) : Simulates host chunk last m target r := by
  cases r with
  | ok a s =>
    obtain ⟨n, hn, hg'⟩ := h
    exact ⟨k + n, by omega, hg.trans hg'⟩
  | error fault s =>
    intro hf
    obtain ⟨n, hn, e, hg', hr⟩ := h hf
    exact ⟨k + n, by omega, e, hg.trans hg', hr⟩

theorem step {r : EStateM.Result Fault (Store σ) α} (ready : m.Ready chunk) (hs : m.step host chunk = .inl m₁)
    (hip : m.ip < m₁.ip) (h : Simulates host chunk last m₁ target r) : Simulates host chunk last m target r :=
  after (Goes.one ready hs) (by omega) h

/-- A single instruction. -/
theorem one {a : α} {s : Store σ} (ready : m.Ready chunk) (hs : m.step host chunk = target a s)
    (hl : m.ip < last := by exact Nat.lt_succ_self _) : Simulates host chunk last m target (.ok a s) := by
  refine ⟨1, by omega, ?_⟩
  cases ht : target a s with
  | inl m₁ => exact .one ready (hs.trans ht)
  | inr o => exact .last ready (hs.trans ht)

/-- A single instruction that ends the run with a fault. -/
theorem fault {fault : Fault} {s : Store σ} {e : RuntimeError} (ready : m.Ready chunk)
    (hs : m.step host chunk = .inr (.error e s.host)) (hr : fault.Reported chunk e)
    (hl : m.ip < last := by exact Nat.lt_succ_self _) : Simulates host chunk last m target (.error fault s) :=
  fun _ => ⟨1, by omega, e, .last ready hs, hr⟩

/-- One evaluation behind another: the second starts where the first has led. -/
theorem bind {x : Eval σ α} {f : α → Eval σ β} {s : Store σ} {stack : α → List Value}
    (hx : Simulates host chunk ip m (fun a s => .inl (s.machine ip (stack a))) (x s)) (hip : ip ≤ last)
    (hf : ∀ a s₁, x s = .ok a s₁ → Simulates host chunk last (s₁.machine ip (stack a)) target' (f a s₁)) :
    Simulates host chunk last m target' ((x >>= f) s) := by
  change Simulates host chunk last m target' (EStateM.bind x f s)
  unfold EStateM.bind
  cases hr : x s with
  | ok a s₁ =>
    rw [hr] at hx
    obtain ⟨n, hn, hg⟩ := hx
    exact after hg hn (hf a s₁ hr)
  | error fault s₁ =>
    rw [hr] at hx
    intro hne
    obtain ⟨n, hn, e, hg, hrep⟩ := hx hne
    exact ⟨n, by omega, e, hg, hrep⟩

theorem map {x : Eval σ α} {g : α → β} {s : Store σ}
    (h : Simulates host chunk last m (fun a s => target' (g a) s) (x s)) :
    Simulates host chunk last m target' ((x >>= fun a => pure (g a)) s) := by
  change Simulates host chunk last m target' (EStateM.bind x (fun a => pure (g a)) s)
  unfold EStateM.bind
  cases hr : x s with
  | ok a s₁ =>
    rw [hr] at h
    exact h
  | error fault s₁ =>
    rw [hr] at h
    exact h

/-- Only a value that is there has to be simulated. -/
theorem orStuck {o : Option α} {s : Store σ} (h : ∀ a, o = some a → Simulates host chunk last m target (.ok a s)) :
    Simulates host chunk last m target (Eval.orStuck o s) := by
  cases o with
  | some a => exact h a rfl
  | none => exact fun hne => absurd rfl hne

theorem orStuck_bind {o : Option α} {f : α → Eval σ β} {s : Store σ}
    (h : ∀ a, o = some a → Simulates host chunk last m target' (f a s)) :
    Simulates host chunk last m target' ((Eval.orStuck o >>= f) s) := by
  cases o with
  | some a => exact h a rfl
  | none => exact fun hne => absurd rfl hne

section Jumps

variable {s : Store σ} {stack : List Value} {r : EStateM.Result Fault (Store σ) α} {label : Label} {address : Nat}

theorem jump (hi : chunk.code[ip]? = some (.jump label)) (ht : chunk.target? label = some address) (hip : ip < address)
    (h : Simulates host chunk last (s.machine address stack) target r) :
    Simulates host chunk last (s.machine ip stack) target r :=
  .step ⟨_, hi, address, ht⟩ (step_jump hi ht) hip h

theorem jumpUnless_true (hi : chunk.code[ip]? = some (.jumpUnless label)) (ht : chunk.target? label = some address)
    (h : Simulates host chunk last (s.machine (ip + 1) stack) target r) :
    Simulates host chunk last (s.machine ip (.boolean true :: stack)) target r :=
  .step ⟨_, hi, ⟨true, stack, rfl⟩, address, ht⟩ (step_jumpUnless hi rfl ht) (Nat.lt_succ_self ip) h

theorem jumpUnless_false (hi : chunk.code[ip]? = some (.jumpUnless label)) (ht : chunk.target? label = some address)
    (hip : ip < address) (h : Simulates host chunk last (s.machine address stack) target r) :
    Simulates host chunk last (s.machine ip (.boolean false :: stack)) target r :=
  .step ⟨_, hi, ⟨false, stack, rfl⟩, address, ht⟩ (step_jumpUnless hi rfl ht) hip h

theorem push {value : Value} (hi : chunk.code[ip]? = some (.push value))
    (h : Simulates host chunk last (s.machine (ip + 1) (value :: stack)) target r) :
    Simulates host chunk last (s.machine ip stack) target r :=
  .step ⟨_, hi, trivial⟩ (step_push hi) (Nat.lt_succ_self ip) h

end Jumps

/-- A request to the host that a single instruction makes. -/
theorem onHost {act : EStateM RuntimeError σ α} {s : Store σ} (ready : m.Ready chunk)
    (hok : ∀ a world, act s.host = .ok a world → m.step host chunk = target a { s with host := world })
    (herror : ∀ e world, act s.host = .error e world → m.step host chunk = .inr (.error e world))
    (hl : m.ip < last := by exact Nat.lt_succ_self _) : Simulates host chunk last m target (Eval.onHost act s) := by
  unfold Eval.onHost
  cases hr : act s.host with
  | ok a world => exact .one ready (hok a world hr) hl
  | error e world => exact .fault ready (herror e world hr) rfl hl

end Simulates

end Machine

open Machine

variable {host : Host σ} {chunk : Chunk}

/-! ### Expressions -/

namespace Expr

theorem length_of_evalArgs : ∀ {args : List Expr} {values : List Value} {s s' : Store σ},
    evalArgs host args s = .ok values s' → values.length = args.length
  | [], values, s, s', h => by
    cases h
    rfl
  | e :: es, values, s, s', h => by
    unfold evalArgs at h
    obtain ⟨v, s₁, _, h⟩ := EStateM.ok_of_bind h
    obtain ⟨first, s₂, _, h⟩ := EStateM.ok_of_bind h
    obtain ⟨rest, s₃, hrest, h⟩ := EStateM.ok_of_bind h
    cases h
    rw [List.length_cons, List.length_cons, length_of_evalArgs hrest]

theorem simulates_load (target : Variable) {address : Nat} (hi : chunk.code[address]? = some target.load)
    (stack : List Value) (s : Store σ) :
    Simulates host chunk (address + 1) (s.machine address stack)
      (fun value s => .inl (s.machine (address + 1) (value :: stack))) (Eval.load host target s) := by
  cases hb : target.binding with
  | parameter index =>
    rw [Variable.load, hb] at hi
    rw [Eval.load_param hb]
    exact .orStuck fun value hv => .one ⟨_, hi, value, hv⟩ (step_loadParam hi hv)
  | localSlot slot =>
    rw [Variable.load, hb] at hi
    rw [Eval.load_local hb]
    exact .orStuck fun value hv => .one ⟨_, hi, value, hv⟩ (step_loadLocal hi hv)
  | global handle =>
    rw [Variable.load, hb] at hi
    simp only [Eval.load, hb]
    have hs : (s.machine address stack).step host chunk = _ := step_loadGlobal hi
    simp only [Store.machine] at hs
    refine .map (.onHost ⟨_, hi, trivial⟩ (fun n world h => ?_) fun e world h => ?_)
    · rw [h] at hs
      exact hs
    · rw [h] at hs
      exact hs

/-- A prefix operator behind its operand. -/
theorem simulates_unary (op : UnaryOp) {address : Nat} (hi : Within op.code (chunk.code[·]?) address)
    {a value : Value} (hv : op.result? a = some value) (stack : List Value) (s : Store σ) :
    Simulates host chunk (address + op.code.length) (s.machine address (a :: stack))
      (fun v s => .inl (s.machine (address + op.code.length) (v.toList ++ stack))) (.ok (some value) s) := by
  cases op with
  | plus =>
    cases a with
    | integer n =>
      cases hv
      exact .here rfl (Nat.le_refl _)
    | boolean b => cases hv
  | negate =>
    cases a with
    | integer n =>
      cases hv
      exact .one ⟨_, hi.head, n, stack, rfl⟩ (step_neg hi.head rfl)
    | boolean b => cases hv
  | not =>
    cases a with
    | integer n => cases hv
    | boolean b =>
      cases hv
      exact .one ⟨_, hi.head, b, stack, rfl⟩ (step_not hi.head rfl)

theorem simulates_strict {op : StrictOp} {address : Nat} (hi : chunk.code[address]? = some (.strict op))
    (a b : Int64) (stack : List Value) (s : Store σ) :
    Simulates host chunk (address + 1) (s.machine address (.integer b :: .integer a :: stack))
      (fun v s => .inl (s.machine (address + 1) (v.toList ++ stack)))
      ((match op.result? a b with
        | some value => pure (some value)
        | none => throw .divisionByZero : Eval σ (Option Value)) s) := by
  have ready : (s.machine address (.integer b :: .integer a :: stack)).Ready chunk := ⟨_, hi, a, b, stack, rfl⟩
  have hs : (s.machine address (.integer b :: .integer a :: stack)).step host chunk = _ := step_strict hi rfl
  cases hr : op.result? a b with
  | some value =>
    rw [hr] at hs
    exact .one ready hs
  | none =>
    rw [hr] at hs
    obtain ⟨rfl, -⟩ := StrictOp.result?_eq_none.mp hr
    exact .fault ready hs ⟨address, rfl, hi⟩

/-- A call behind its arguments. -/
theorem simulates_call {function : FunctionHandle} {argc : Nat} {returns : Ty} {address : Nat}
    (hi : chunk.code[address]? = some (.call function argc returns)) {values : List Value} (hlen : values.length = argc)
    (stack : List Value) (s : Store σ) :
    Simulates host chunk (address + 1) (s.machine address (values.reverse ++ stack))
      (fun v s => .inl (s.machine (address + 1) (v.toList ++ stack)))
      ((Eval.onHost (host.call function values) >>= Eval.checkResult returns) s) := by
  have hle : argc ≤ (values.reverse ++ stack).length := by simp; omega
  have htake : ((values.reverse ++ stack).take argc).reverse = values := by
    rw [List.take_left' (by simp [hlen]), List.reverse_reverse]
  have hdrop : (values.reverse ++ stack).drop argc = stack := List.drop_left' (by simp [hlen])
  have ready : (s.machine address (values.reverse ++ stack)).Ready chunk := ⟨_, hi, hle⟩
  have hs : (s.machine address (values.reverse ++ stack)).step host chunk = _ := step_call hi hle
  simp only [Store.machine, htake, hdrop] at hs
  change Simulates host chunk (address + 1) _ _ (EStateM.bind _ _ s)
  unfold EStateM.bind Eval.onHost
  cases hc : host.call function values s.host with
  | error e world =>
    rw [hc] at hs
    exact .fault ready hs rfl
  | ok result world =>
    rw [hc] at hs
    cases returns with
    | void => exact .one ready hs
    | integer =>
      rcases result with _ | n | b
      · exact .fault ready hs ⟨address, function, argc, rfl, hi⟩
      · exact .one ready hs
      · exact .fault ready hs ⟨address, function, argc, rfl, hi⟩
    | boolean =>
      rcases result with _ | n | b
      · exact .fault ready hs ⟨address, function, argc, rfl, hi⟩
      · exact .fault ready hs ⟨address, function, argc, rfl, hi⟩
      · exact .one ready hs

mutual

theorem simulates : ∀ (e : Expr) {address : Nat} {label : Label}
    (_ : (e.fragment address label).Placed chunk address label) (stack : List Value) (s : Store σ),
    Simulates host chunk (address + (e.fragment address label).code.length) (s.machine address stack)
      (fun v s => .inl (s.machine (address + (e.fragment address label).code.length) (v.toList ++ stack)))
      (e.eval host s)
  | const value, address, label, hp, stack, s => by
    unfold eval
    exact .one ⟨_, hp.code.head, trivial⟩ (step_push hp.code.head)
  | var target, address, label, hp, stack, s => by
    unfold eval
    exact .map (simulates_load target hp.code.head stack s)
  | unary op operand, address, label, hp, stack, s => by
    unfold fragment at hp ⊢
    unfold eval
    simp only [List.length_append, ← Nat.add_assoc]
    refine .bind (simulates operand ⟨hp.code.left, hp.targets⟩ stack s) (by omega) fun v s₁ _ =>
      .orStuck_bind fun a ha => ?_
    rw [ha]
    exact .orStuck_bind fun value hv => simulates_unary op (hp.code.right rfl) hv stack s₁
  | strict op left right, address, label, hp, stack, s => by
    unfold fragment at hp ⊢
    unfold eval
    simp only [List.length_append, List.length_singleton, ← Nat.add_assoc]
    refine .bind (simulates left ⟨hp.code.left.left, hp.targets.left⟩ stack s) (by omega) fun v s₁ _ =>
      .orStuck_bind fun a ha => ?_
    rw [Value.eq_of_integer? ha]
    refine .bind (simulates right ⟨hp.code.left.right rfl, hp.targets.right rfl⟩ (.integer a :: stack) s₁) (by omega)
      fun w s₂ _ => .orStuck_bind fun b hb => ?_
    rw [Value.eq_of_integer? hb]
    exact simulates_strict (hp.code.right (by simp [Nat.add_assoc])).head a b stack s₂
  | logical .or left right, address, label, hp, stack, s => by
    unfold fragment at hp ⊢
    unfold eval
    simp only [List.length_append, List.length_cons, List.length_nil, Nat.zero_add, ← Nat.add_assoc]
    have hmid : Within [.jumpUnless label, .push (.boolean true), .jump (label + 1)] (chunk.code[·]?) _ :=
      hp.code.left.right rfl
    refine .bind (simulates left ⟨hp.code.left.left, hp.targets.tail.tail.left⟩ stack s) (by omega) fun v s₁ _ =>
      .orStuck_bind fun a ha => ?_
    rw [Value.eq_of_boolean? ha]
    cases a with
    | true =>
      exact .jumpUnless_true hmid.head hp.targets.head (.push hmid.tail.head
        (.jump hmid.tail.tail.head hp.targets.tail.head (by omega) (.here rfl (Nat.le_refl _))))
    | false =>
      refine .jumpUnless_false hmid.head hp.targets.head (by omega) ?_
      refine .bind (simulates right ⟨hp.code.right (by simp [Nat.add_assoc]), hp.targets.tail.tail.right rfl⟩ stack s₁)
        (Nat.le_refl _) fun w s₂ _ => .orStuck_bind fun b hb => ?_
      rw [Value.eq_of_boolean? hb]
      exact .here rfl (Nat.le_refl _)
  | logical .and left right, address, label, hp, stack, s => by
    unfold fragment at hp ⊢
    unfold eval
    simp only [List.length_append, List.length_cons, List.length_nil, Nat.zero_add, ← Nat.add_assoc]
    have hfork : Within [.jumpUnless label] (chunk.code[·]?) _ := hp.code.left.left.right rfl
    refine .bind (simulates left ⟨hp.code.left.left.left, hp.targets.tail.tail.left⟩ stack s) (by omega) fun v s₁ _ =>
      .orStuck_bind fun a ha => ?_
    rw [Value.eq_of_boolean? ha]
    have hend : Within [.jump (label + 1), .push (.boolean false)] (chunk.code[·]?) _ := hp.code.right rfl
    simp only [List.length_append, List.length_cons, List.length_nil, Nat.zero_add, ← Nat.add_assoc] at hend
    cases a with
    | true =>
      refine .jumpUnless_true hfork.head hp.targets.head ?_
      refine .bind (simulates right ⟨hp.code.left.right (by simp [Nat.add_assoc]), hp.targets.tail.tail.right rfl⟩ stack s₁)
        (by omega) fun w s₂ _ => .orStuck_bind fun b hb => ?_
      rw [Value.eq_of_boolean? hb]
      exact .jump hend.head hp.targets.tail.head (by omega) (.here rfl (Nat.le_refl _))
    | false =>
      exact .jumpUnless_false hfork.head hp.targets.head (by omega) (.push hend.tail.head (.here rfl (Nat.le_refl _)))
  | call name function returns args, address, label, hp, stack, s => by
    unfold fragment at hp ⊢
    unfold eval
    simp only [List.length_append, List.length_singleton, ← Nat.add_assoc]
    exact .bind (simulates_args args ⟨hp.code.left, hp.targets⟩ stack s) (by omega) fun values s₁ hvalues =>
      simulates_call (hp.code.right rfl).head (length_of_evalArgs hvalues) stack s₁

theorem simulates_args : ∀ (args : List Expr) {address : Nat} {label : Label}
    (_ : (fragments args address label).Placed chunk address label) (stack : List Value) (s : Store σ),
    Simulates host chunk (address + (fragments args address label).code.length) (s.machine address stack)
      (fun values s => .inl (s.machine (address + (fragments args address label).code.length) (values.reverse ++ stack)))
      (evalArgs host args s)
  | [], address, label, hp, stack, s => by
    unfold evalArgs
    exact .here rfl (Nat.le_refl _)
  | e :: es, address, label, hp, stack, s => by
    unfold fragments at hp ⊢
    unfold evalArgs
    simp only [List.length_append, ← Nat.add_assoc]
    refine .bind (simulates e ⟨hp.code.left, hp.targets.left⟩ stack s) (by omega) fun v s₁ _ =>
      .orStuck_bind fun first ha => ?_
    rw [ha]
    have ih := simulates_args es ⟨hp.code.right rfl, hp.targets.right rfl⟩ (first :: stack) s₁
    refine .map ?_
    simpa using ih

end

end Expr
end HostScript
