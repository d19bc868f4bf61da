import HostScript.Proofs.Machine.Compiled

/-! All jumps go forward, so every run ends.

A jump in the code of a tree goes to an address behind it, at most to the end of that code. Behind the
code of a whole program stands a return, or it ends with one, so there is an instruction at every target.
Of code like that a run executes each instruction at most once, whatever the host does and whether or
not the program is typed: a step that does not end the run goes to a larger address. -/

namespace HostScript

/-- The label to which the instruction may jump. -/
def Instr.label? : Instr → Option Label
  | jump label | jumpUnless label => some label
  | _ => none

/-- The jumps in code that stands at an address go forward, to addresses up to `last`. -/
def Forward (look : Label → Option Nat) (last address : Nat) (code : List Instr) : Prop :=
  ∀ i instr label, code[i]? = some instr → instr.label? = some label →
    ∃ target, look label = some target ∧ address + i < target ∧ target ≤ last

namespace Forward

variable {look : Label → Option Nat} {last last' address : Nat} {instr : Instr} {a b : List Instr}

theorem nil : Forward look last address [] := fun i instr label hi => by cases hi

/-- An instruction that is no jump. -/
theorem cons (hl : instr.label? = none) (h : Forward look last (address + 1) a) : Forward look last address (instr :: a) := by
  intro i instr' label hi hl'
  cases i with
  | zero =>
    cases hi
    rw [hl] at hl'
    cases hl'
  | succ i =>
    obtain ⟨target, ht, hlt, hle⟩ := h i instr' label hi hl'
    exact ⟨target, ht, by omega, hle⟩

theorem jump {label : Label} {target : Nat} (hl : instr.label? = some label) (ht : look label = some target)
    (hlt : address < target) (hle : target ≤ last) (h : Forward look last (address + 1) a) :
    Forward look last address (instr :: a) := by
  intro i instr' label' hi hl'
  cases i with
  | zero =>
    cases hi
    rw [hl] at hl'
    cases hl'
    exact ⟨target, ht, hlt, hle⟩
  | succ i =>
    obtain ⟨target, ht, hlt, hle⟩ := h i instr' label' hi hl'
    exact ⟨target, ht, by omega, hle⟩

theorem append (ha : Forward look last address a) {middle : Nat} (hm : middle = address + a.length)
    (hb : Forward look last middle b) : Forward look last address (a ++ b) := by
  intro i instr label hi hl
  rw [List.getElem?_append] at hi
  split at hi
  · exact ha i instr label hi hl
  next hge =>
    obtain ⟨target, ht, hlt, hle⟩ := hb _ instr label hi hl
    exact ⟨target, ht, by omega, hle⟩

theorem mono (h : Forward look last address a) (hl : last ≤ last') : Forward look last' address a := by
  intro i instr label hi hlabel
  obtain ⟨target, ht, hlt, hle⟩ := h i instr label hi hlabel
  exact ⟨target, ht, hlt, by omega⟩

end Forward

/-! ### The code of trees -/

theorem Variable.label?_load (v : Variable) : v.load.label? = none := by
  unfold load
  split <;> rfl

theorem Variable.label?_store (v : Variable) : v.store.label? = none := by
  unfold store
  split <;> rfl

variable {look : Label → Option Nat}

namespace Expr

mutual

theorem forward : ∀ (e : Expr) {address : Nat} {label : Label},
    Within (e.fragment address label).targets look label →
      Forward look (address + (e.fragment address label).code.length) address (e.fragment address label).code
  | const value, address, label, _ => .cons rfl .nil
  | var target, address, label, _ => .cons target.label?_load .nil
  | unary op operand, address, label, h => by
    unfold fragment at h ⊢
    refine .append ((forward operand h).mono (by simp)) rfl ?_
    cases op with
    | plus => exact .nil
    | negate | not => exact .cons rfl .nil
  | strict op left right, address, label, h => by
    unfold fragment at h ⊢
    simp only [List.length_append, ← Nat.add_assoc]
    refine .append (.append ((forward left h.left).mono (by omega)) rfl ?_) rfl (.cons rfl .nil)
    exact (forward right (h.right rfl)).mono (by omega)
  | logical .or left right, address, label, h => by
    unfold fragment at h ⊢
    simp only [List.length_append, List.length_cons, List.length_nil, Nat.zero_add, ← Nat.add_assoc]
    refine .append (.append ((forward left h.tail.tail.left).mono (by omega)) rfl ?_) ?_
      (forward right (h.tail.tail.right rfl))
    · exact .jump rfl h.head (by omega) (by omega) (.cons rfl (.jump rfl h.tail.head (by omega) (by omega) .nil))
    · simp [Nat.add_assoc]
  | logical .and left right, address, label, h => by
    unfold fragment at h ⊢
    simp only [List.length_append, List.length_cons, List.length_nil, Nat.zero_add, ← Nat.add_assoc]
    refine .append (.append (.append ((forward left h.tail.tail.left).mono (by omega)) rfl ?_) ?_
      ((forward right (h.tail.tail.right rfl)).mono (by omega))) rfl ?_
    · exact .jump rfl h.head (by omega) (by omega) .nil
    · simp [Nat.add_assoc]
    · simp only [List.length_append, List.length_cons, List.length_nil, Nat.zero_add, ← Nat.add_assoc]
      exact .jump rfl h.tail.head (by omega) (by omega) (.cons rfl .nil)
  | call name function returns args, address, label, h => by
    unfold fragment at h ⊢
    exact .append ((forward_all args h).mono (by simp)) rfl (.cons rfl .nil)

theorem forward_all : ∀ (args : List Expr) {address : Nat} {label : Label},
    Within (fragments args address label).targets look label →
      Forward look (address + (fragments args address label).code.length) address (fragments args address label).code
  | [], address, label, _ => .nil
  | e :: es, address, label, h => by
    unfold fragments at h ⊢
    simp only [List.length_append, ← Nat.add_assoc]
    exact .append ((forward e h.left).mono (by omega)) rfl (forward_all es (h.right rfl))

end

end Expr

namespace Stmt

mutual

theorem forward : ∀ (t : Stmt) {address : Nat} {label : Label},
    Within (t.fragment address label).targets look label →
      Forward look (address + (t.fragment address label).code.length) address (t.fragment address label).code
  | declare _, address, label, _ => .nil
  | empty, address, label, _ => .nil
  | assign target value, address, label, h => by
    unfold fragment at h ⊢
    exact .append ((value.forward h).mono (by simp)) rfl (.cons target.label?_store .nil)
  | ret value, address, label, h => by
    unfold fragment at h ⊢
    exact .append ((value.forward h).mono (by simp)) rfl (.cons rfl .nil)
  | expr value, address, label, h => by
    unfold fragment at h ⊢
    refine .append ((value.forward h).mono (by simp)) rfl ?_
    split
    · exact .cons rfl .nil
    · exact .nil
  | block body, address, label, h => by
    simp only [fragment] at h ⊢
    exact forward_all body h
  | branch _ (some true) thenBranch _, address, label, h => by
    simp only [fragment] at h ⊢
    exact forward thenBranch h
  | branch _ (some false) _ elseBranch, address, label, h => by
    simp only [fragment] at h ⊢
    exact forward_option elseBranch h
  | branch condition none thenBranch none, address, label, h => by
    unfold fragment at h ⊢
    simp only [List.length_append, List.length_singleton, ← Nat.add_assoc]
    refine .append (.append ((condition.forward h.tail.left).mono (by omega)) rfl ?_) ?_ (forward thenBranch (h.tail.right rfl))
    · exact .jump rfl h.head (by omega) (by omega) .nil
    · simp [Nat.add_assoc]
  | branch condition none thenBranch (some elseBranch), address, label, h => by
    unfold fragment at h ⊢
    simp only [List.length_append, List.length_singleton, ← Nat.add_assoc]
    have hout := h.tail.right rfl
    simp only [List.length_append, ← Nat.add_assoc] at hout
    refine .append (.append (.append (.append ((condition.forward h.tail.left.left).mono (by omega)) rfl ?_) ?_
      ((forward thenBranch (h.tail.left.right rfl)).mono (by omega))) rfl ?_) ?_ (forward elseBranch hout.tail)
    · exact .jump rfl h.head (by omega) (by omega) .nil
    · simp [Nat.add_assoc]
    · simp only [List.length_append, List.length_singleton, ← Nat.add_assoc]
      exact .jump rfl hout.head (by omega) (by omega) .nil
    · simp only [List.length_append, List.length_singleton, ← Nat.add_assoc]

theorem forward_all : ∀ (body : List Stmt) {address : Nat} {label : Label},
    Within (fragments body address label).targets look label →
      Forward look (address + (fragments body address label).code.length) address (fragments body address label).code
  | [], address, label, _ => .nil
  | t :: body, address, label, h => by
    unfold fragments at h ⊢
    simp only [List.length_append, ← Nat.add_assoc]
    exact .append ((forward t h.left).mono (by omega)) rfl (forward_all body (h.right rfl))

theorem forward_option : ∀ (branch : Option Stmt) {address : Nat} {label : Label},
    Within (optionFragment branch address label).targets look label →
      Forward look (address + (optionFragment branch address label).code.length) address
        (optionFragment branch address label).code
  | none, address, label, _ => .nil
  | some t, address, label, h => by
    simp only [optionFragment] at h ⊢
    exact forward t h

end

end Stmt

/-! ### Steps -/

/-- Every jump goes to an instruction behind it, and the last instruction is a return. -/
structure Chunk.Forward (chunk : Chunk) : Prop where
  jumps : ∀ address i label, chunk.code[address]? = some i → i.label? = some label →
    ∃ target, chunk.target? label = some target ∧ address < target ∧ target < chunk.code.length
  ends : chunk.code.getLast? = some .ret

namespace Machine

variable {σ α β : Type}

/-- The action leaves the instruction pointer alone. -/
def Stays (x : Action σ α) : Prop := ∀ m a m₁, x m = .ok a m₁ → m₁.ip = m.ip

namespace Stays

theorem pure (a : α) : Stays (Pure.pure a : Action σ α) := fun m b m₁ h => by
  cases h
  rfl

theorem throw (e : RuntimeError) : Stays (MonadExcept.throw e : Action σ α) := fun m a m₁ h => by cases h

theorem bind {x : Action σ α} {f : α → Action σ β} (hx : Stays x) (hf : ∀ a, Stays (f a)) : Stays (x >>= f) := by
  intro m b m₁ h
  rw [bind_apply] at h
  split at h
  next a m' hm =>
    rw [hf a m' b m₁ h]
    exact hx m a m' hm
  next => cases h

theorem push (value : Value) : Stays (Machine.push value : Action σ Unit) := fun m a m₁ h => by
  cases h
  rfl

theorem pop (address : Nat) : Stays (Machine.pop address : Action σ Value) := by
  intro m a m₁ h
  unfold Machine.pop at h
  split at h
  · cases h
  · cases h
    rfl

theorem popInteger (address : Nat) : Stays (Machine.popInteger address : Action σ Int64) := by
  refine (pop address).bind fun value => ?_
  cases value with
  | integer n => exact .pure n
  | boolean b => exact .throw _

theorem popBoolean (address : Nat) : Stays (Machine.popBoolean address : Action σ Bool) := by
  refine (pop address).bind fun value => ?_
  cases value with
  | integer n => exact .throw _
  | boolean b => exact .pure b

theorem popArgs (address argc : Nat) : Stays (Machine.popArgs address argc : Action σ (List Value)) := by
  intro m a m₁ h
  unfold Machine.popArgs at h
  split at h
  · cases h
  · cases h
    rfl

theorem onHost (act : EStateM RuntimeError σ α) : Stays (Machine.onHost act) := by
  intro m a m₁ h
  unfold Machine.onHost at h
  split at h
  · cases h
    rfl
  · cases h

theorem loadParam (index : Nat) : Stays (Machine.loadParam index : Action σ Value) := by
  intro m a m₁ h
  unfold Machine.loadParam at h
  split at h
  · cases h
    rfl
  · cases h

theorem loadLocal (slot : Nat) : Stays (Machine.loadLocal slot : Action σ Value) := by
  intro m a m₁ h
  unfold Machine.loadLocal at h
  split at h
  · cases h
    rfl
  · cases h

theorem storeParam (index : Nat) (value : Value) : Stays (Machine.storeParam index value : Action σ Unit) := by
  intro m a m₁ h
  unfold Machine.storeParam at h
  split at h
  · cases h
    rfl
  · cases h

theorem storeLocal (slot : Nat) (value : Value) : Stays (Machine.storeLocal slot value : Action σ Unit) := by
  intro m a m₁ h
  unfold Machine.storeLocal at h
  split at h
  · cases h
    rfl
  · cases h

theorem pushResult (address : Nat) (ty : Ty) (result : Option Value) :
    Stays (Machine.pushResult address ty result : Action σ Unit) := by
  cases ty with
  | void => exact .pure ()
  | integer | boolean =>
    cases result with
    | none => exact .throw _
    | some value =>
      simp only [Machine.pushResult]
      split
      · exact .push value
      · exact .throw _

end Stays

variable {host : Host σ} {chunk : Chunk} {m m₁ : Machine σ}

theorem ip_of_jump {label : Label} {u : Unit} (h : jump chunk label m = .ok u m₁) : chunk.target? label = some m₁.ip := by
  unfold jump at h
  cases ht : chunk.target? label with
  | some target =>
    rw [ht] at h
    cases h
    rfl
  | none =>
    rw [ht] at h
    cases h

/-- An instruction that is executed moves the pointer only to the target of its label. -/
theorem ip_of_execute {address : Nat} {i : Instr} {result : Option Int64}
    (h : execute host chunk address i m = .ok result m₁) :
    m₁.ip = m.ip ∨ ∃ label, i.label? = some label ∧ chunk.target? label = some m₁.ip := by
  have stays {x : Action σ (Option Int64)} (hx : Stays x) (h : x m = .ok result m₁) : m₁.ip = m.ip := hx m result m₁ h
  cases i with
  | push value => exact .inl (stays ((Stays.push value).bind fun _ => .pure none) h)
  | pop => exact .inl (stays ((Stays.pop address).bind fun _ => .pure none) h)
  | loadParam index =>
    exact .inl (stays ((Stays.loadParam index).bind fun _ => (Stays.push _).bind fun _ => .pure none) h)
  | loadLocal slot =>
    exact .inl (stays ((Stays.loadLocal slot).bind fun _ => (Stays.push _).bind fun _ => .pure none) h)
  | storeParam index =>
    exact .inl (stays ((Stays.pop address).bind fun _ => (Stays.storeParam index _).bind fun _ => .pure none) h)
  | storeLocal slot =>
    exact .inl (stays ((Stays.pop address).bind fun _ => (Stays.storeLocal slot _).bind fun _ => .pure none) h)
  | loadGlobal handle => exact .inl (stays ((Stays.onHost _).bind fun _ => (Stays.push _).bind fun _ => .pure none) h)
  | storeGlobal handle =>
    exact .inl (stays ((Stays.popInteger address).bind fun _ => (Stays.onHost _).bind fun _ => .pure none) h)
  | neg => exact .inl (stays ((Stays.popInteger address).bind fun _ => (Stays.push _).bind fun _ => .pure none) h)
  | not => exact .inl (stays ((Stays.popBoolean address).bind fun _ => (Stays.push _).bind fun _ => .pure none) h)
  | strict op =>
    refine .inl (stays ((Stays.popInteger address).bind fun b => (Stays.popInteger address).bind fun a => ?_) h)
    split
    · exact (Stays.push _).bind fun _ => .pure none
    · exact .throw _
  | jump label =>
    simp only [execute, bind_apply] at h
    split at h
    next hj =>
      cases h
      exact .inr ⟨label, rfl, ip_of_jump hj⟩
    next => cases h
  | jumpUnless label =>
    simp only [execute, bind_apply] at h
    split at h
    next b m' hp =>
      have hm' : m'.ip = m.ip := Stays.popBoolean address m b m' hp
      split at h
      · cases h
        exact .inl hm'
      · simp only [bind_apply] at h
        split at h
        next hj =>
          cases h
          exact .inr ⟨label, rfl, ip_of_jump hj⟩
        next => cases h
    next => cases h
  | call function argc returns =>
    exact .inl (stays ((Stays.popArgs address argc).bind fun _ => (Stays.onHost _).bind fun _ =>
      (Stays.pushResult address returns _).bind fun _ => .pure none) h)
  | ret => exact .inl (stays ((Stays.popInteger address).bind fun _ => .pure _) h)

theorem execute_ret_ne_none {address : Nat} : execute host chunk address .ret m ≠ .ok none m₁ := by
  intro h
  simp only [execute, bind_apply] at h
  split at h <;> cases h

/-- A step that does not end the run goes to an instruction behind the one that it executes. -/
theorem step_forward (hc : chunk.Forward) (h : m.step host chunk = .inl m₁) :
    m.ip < m₁.ip ∧ m₁.ip < chunk.code.length := by
  unfold step at h
  split at h
  · cases h
  next i hi =>
    split at h
    next m' he =>
      cases h
      rcases ip_of_execute he with hip | ⟨label, hl, ht⟩
      · have hlt : m.ip < chunk.code.length := (List.getElem?_eq_some_iff.mp hi).1
        -- The last instruction is a return, so it is not the one executed here.
        have hlast : m.ip ≠ chunk.code.length - 1 := by
          intro heq
          rw [heq, ← List.getLast?_eq_getElem?, hc.ends] at hi
          cases hi
          exact execute_ret_ne_none he
        simp only at hip
        omega
      · obtain ⟨target, ht', hlt, hle⟩ := hc.jumps m.ip i label hi hl
        rw [ht] at ht'
        cases ht'
        exact ⟨hlt, hle⟩
    next => cases h
    next => cases h

/-! ### Runs -/

/-- The addresses of the instructions that a run executes in at most so many steps, in their order. -/
def executed (host : Host σ) (chunk : Chunk) : Nat → Machine σ → List Nat
  | 0, _ => []
  | fuel + 1, m =>
    if m.ip < chunk.code.length then
      m.ip :: match m.step host chunk with
        | .inl m => executed host chunk fuel m
        | .inr _ => []
    else []

/-- Addresses that are executed lie from the first one on, and within the code. -/
theorem bounds_of_mem_executed (hc : chunk.Forward) {address : Nat} : ∀ {fuel : Nat} {m : Machine σ},
    address ∈ executed host chunk fuel m → m.ip ≤ address ∧ address < chunk.code.length
  | fuel + 1, m, h => by
    unfold executed at h
    split at h
    next hlt =>
      rcases List.mem_cons.mp h with rfl | h
      · exact ⟨Nat.le_refl _, hlt⟩
      · split at h
        next m₁ hs =>
          obtain ⟨hle, hbound⟩ := bounds_of_mem_executed hc h
          obtain ⟨hip, -⟩ := step_forward hc hs
          exact ⟨by omega, hbound⟩
        next => cases h
    next => cases h

theorem executed_increasing (hc : chunk.Forward) : ∀ (fuel : Nat) (m : Machine σ),
    (executed host chunk fuel m).Pairwise (· < ·)
  | 0, m => .nil
  | fuel + 1, m => by
    unfold executed
    split
    next =>
      split
      next m₁ hs =>
        refine .cons (fun address ha => ?_) (executed_increasing hc fuel m₁)
        obtain ⟨hle, -⟩ := bounds_of_mem_executed hc ha
        obtain ⟨hip, -⟩ := step_forward hc hs
        omega
      next => exact List.pairwise_singleton _ _
    next => exact .nil

theorem length_executed (hc : chunk.Forward) : ∀ (fuel : Nat) {m : Machine σ}, m.ip ≤ chunk.code.length →
    m.ip + (executed host chunk fuel m).length ≤ chunk.code.length
  | 0, m, hip => hip
  | fuel + 1, m, hip => by
    unfold executed
    split
    next hlt =>
      split
      next m₁ hs =>
        obtain ⟨hnext, hbound⟩ := step_forward hc hs
        have ih := length_executed hc fuel (Nat.le_of_lt hbound)
        rw [List.length_cons]
        omega
      next => exact hlt
    next => exact hip

/-- From an instruction on, as many steps as there are instructions left end the run. -/
theorem runFor_ends (hc : chunk.Forward) {left : Nat} {m : Machine σ} (hip : m.ip < chunk.code.length)
    (hleft : chunk.code.length ≤ m.ip + left) :
    ∃ outcome, ∀ fuel, left ≤ fuel → runFor host chunk fuel m = some outcome := by
  induction left generalizing m with
  | zero => omega
  | succ left ih =>
    cases hs : m.step host chunk with
    | inl m₁ =>
      obtain ⟨hlt, hbound⟩ := step_forward hc hs
      obtain ⟨outcome, h⟩ := ih hbound (by omega)
      refine ⟨outcome, fun fuel hfuel => ?_⟩
      obtain ⟨fuel, rfl⟩ := Nat.exists_eq_add_of_le' (show 1 ≤ fuel by omega)
      rw [runFor, hs]
      exact h fuel (by omega)
    | inr outcome =>
      refine ⟨outcome, fun fuel hfuel => ?_⟩
      obtain ⟨fuel, rfl⟩ := Nat.exists_eq_add_of_le' (show 1 ≤ fuel by omega)
      rw [runFor, hs]

end Machine

/-- The addresses of the instructions that a run of the artifact executes; none if the number of
    arguments is wrong. -/
def Artifact.executed {σ : Type} (artifact : Artifact) (host : Host σ) (fuel : Nat) (args : List Int64) (world : σ) :
    List Nat :=
  if args.length = artifact.params.length then
    Machine.executed host artifact.chunk fuel (.initial artifact args world)
  else []

/-! ### Programs -/

namespace Stmt

theorem fragments_append : ∀ (a b : List Stmt) (address : Nat) (label : Label),
    fragments (a ++ b) address label =
      let first := fragments a address label
      let second := fragments b (address + first.code.length) (label + first.targets.length)
      ⟨first.code ++ second.code, first.targets ++ second.targets⟩
  | [], b, address, label => by simp [fragments]
  | t :: a, b, address, label => by
    simp only [List.cons_append, fragments, fragments_append a b, List.append_assoc, List.length_append, Nat.add_assoc]

theorem eq_ret_of_isRet {t : Stmt} (h : t.isRet) : ∃ value, t = ret value := by
  cases t with
  | ret value => exact ⟨value, rfl⟩
  | _ => cases h

end Stmt

namespace Program

/-- The statements of a program up to a return that is the last one. -/
theorem body_eq_of_tail {body : List Stmt} (h : tail body = []) : ∃ before value, body = before ++ [.ret value] := by
  unfold tail at h
  split at h
  next hlast =>
    obtain ⟨t, hmem, hret⟩ := (Option.any_eq_true _ _).mp hlast
    obtain ⟨value, rfl⟩ := Stmt.eq_ret_of_isRet hret
    obtain ⟨before, rfl⟩ := List.getLast?_eq_some_iff.mp hmem
    exact ⟨before, value, rfl⟩
  next => cases h

theorem tail_cases (body : List Stmt) : tail body = [] ∨ tail body = [.push (.integer 0), .ret] := by
  unfold tail
  split
  · exact .inl rfl
  · exact .inr rfl

/-- The targets of jumps stand up to the last instruction. -/
theorem forward_code (p : Program) : Forward p.chunk.target? (p.chunk.code.length - 1) 0 p.chunk.code := by
  have htargets := p.placed_chunk.targets
  have hcode := p.code_chunk
  rcases tail_cases p.body with ht | ht
  · obtain ⟨before, value, hbody⟩ := body_eq_of_tail ht
    rw [ht, hbody, Stmt.fragments_append] at hcode
    rw [hbody, Stmt.fragments_append] at htargets
    simp only [Stmt.fragments, Stmt.fragment, List.append_nil] at hcode htargets
    rw [hcode]
    simp only [List.length_append, List.length_singleton]
    refine .append ((Stmt.forward_all before htargets.left).mono (by omega)) rfl ?_
    exact .append ((value.forward (htargets.right rfl)).mono (by omega)) rfl (.cons rfl .nil)
  · rw [ht] at hcode
    rw [hcode]
    exact .append ((Stmt.forward_all p.body htargets).mono (by simp)) rfl (.cons rfl (.cons rfl .nil))

theorem getLast?_code (p : Program) : p.chunk.code.getLast? = some .ret := by
  have hcode := p.code_chunk
  rcases tail_cases p.body with ht | ht
  · obtain ⟨before, value, hbody⟩ := body_eq_of_tail ht
    rw [hcode, ht, hbody, Stmt.fragments_append]
    simp [Stmt.fragments, Stmt.fragment]
  · rw [hcode, ht]
    simp

theorem chunk_forward (p : Program) : p.chunk.Forward where
  jumps address i label hi hl := by
    obtain ⟨target, ht, hlt, hle⟩ := p.forward_code address i label hi hl
    have hbound := (List.getElem?_eq_some_iff.mp hi).1
    exact ⟨target, ht, by omega, by omega⟩
  ends := p.getLast?_code

theorem code_length_pos (p : Program) : 0 < p.chunk.code.length := by
  have h := p.getLast?_code
  cases hcode : p.chunk.code with
  | nil => simp [hcode] at h
  | cons => simp

/-- The jumps of a program are bound and go forward, and so every run ends: its instructions are executed
    in the order of their addresses, each at most once, and as many steps as there are instructions are
    enough for it. The host, the arguments and the slots are arbitrary, and the program need not be typed. -/
theorem jumps_forward (p : Program) :
    (∀ target ∈ p.chunk.labels, target.isSome) ∧
    (∀ address i label, p.chunk.code[address]? = some i → i.label? = some label →
      ∃ target, p.chunk.labels[label]? = some (some target) ∧ address < target ∧ target < p.chunk.code.length) ∧
    ∀ (params : List Parameter) (locals : Nat) (σ : Type) (host : Host σ) (args : List Int64) (world : σ),
      (∀ fuel, (Artifact.executed ⟨params, locals, p.chunk⟩ host fuel args world).Pairwise (· < ·) ∧
        (Artifact.executed ⟨params, locals, p.chunk⟩ host fuel args world).length ≤ p.chunk.code.length) ∧
      ∃ outcome, ∀ fuel, p.chunk.code.length ≤ fuel →
        Artifact.run ⟨params, locals, p.chunk⟩ host fuel args world = some outcome := by
  refine ⟨fun target ht => ?_, fun address i label hi hl => ?_, fun params locals σ host args world => ⟨fun fuel => ?_, ?_⟩⟩
  · rw [p.labels_chunk] at ht
    obtain ⟨t, -, rfl⟩ := List.mem_map.mp ht
    rfl
  · obtain ⟨target, ht, hlt, hle⟩ := p.chunk_forward.jumps address i label hi hl
    exact ⟨target, Option.join_eq_some_iff.mp ht, hlt, hle⟩
  · unfold Artifact.executed
    split
    · refine ⟨Machine.executed_increasing p.chunk_forward fuel _, ?_⟩
      exact Nat.le_of_add_left_le (Machine.length_executed p.chunk_forward fuel (Nat.zero_le _))
    · exact ⟨.nil, Nat.zero_le _⟩
  · unfold Artifact.run
    split
    · exact Machine.runFor_ends p.chunk_forward p.code_length_pos (Nat.le_add_left _ 0)
    · exact ⟨_, fun fuel _ => rfl⟩

end Program
end HostScript
