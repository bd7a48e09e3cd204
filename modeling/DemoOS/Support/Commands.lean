import Mathlib.Data.Sum.Basic

/-!
# `DemoOS.Support.Commands`: commands that change a state and may fail

A command `EStateM ε σ α` changes a state and ends with a result or with an error. What it did
before the error stays done. `Ends c s Q E` says how it ends from the state `s`: with a result and
a state in `Q`, or with an error and a state in `E`.

There is one rule for each way to put commands together, `ends_within` for a command on a part of
the state, and `ends_loop` for a loop with an invariant and a variant. The rules for straight code
are equivalences and `simp` lemmas, so that a command unfolds into what has to hold along it.
-/

set_option autoImplicit false

namespace DemoOS.Support

variable {ε σ τ α β : Type}

/-- How a command ends. -/
def Ends (c : EStateM ε σ α) (s : σ) (Q : α → σ → Prop) (E : ε → σ → Prop) : Prop :=
  match c s with
  | .ok a s' => Q a s'
  | .error e s' => E e s'

/-- The result of a run, if it has one. -/
def resultOf : EStateM.Result ε σ α → Option α
  | .ok a _ => some a
  | .error _ _ => none

/-- A run with a result. -/
theorem exists_of_resultOf {r : EStateM.Result ε σ α} {a : α} (h : resultOf r = some a) :
    ∃ s, r = .ok a s := by
  cases r with
  | ok b s =>
      obtain rfl := Option.some.inj h
      exact ⟨s, rfl⟩
  | error e s => cases h

/-- The error of a run, if it has one. -/
def errorOf : EStateM.Result ε σ α → Option ε
  | .ok _ _ => none
  | .error e _ => some e

/-- A run with an error. -/
theorem exists_of_errorOf {r : EStateM.Result ε σ α} {e : ε} (h : errorOf r = some e) :
    ∃ s, r = .error e s := by
  cases r with
  | ok b s => cases h
  | error e' s =>
      obtain rfl := Option.some.inj h
      exact ⟨s, rfl⟩

/-! ### Straight code -/

section Straight
variable {s : σ} {Q Q' : α → σ → Prop} {R : β → σ → Prop} {E E' : ε → σ → Prop}

@[simp] theorem ends_pure (a : α) : Ends (pure a) s Q E ↔ Q a s := Iff.rfl

@[simp] theorem ends_throw (e : ε) : Ends (throw e : EStateM ε σ α) s Q E ↔ E e s := Iff.rfl

@[simp] theorem ends_get {Q : σ → σ → Prop} : Ends get s Q E ↔ Q s s := Iff.rfl

@[simp] theorem ends_set {Q : PUnit → σ → Prop} (s' : σ) : Ends (set s') s Q E ↔ Q ⟨⟩ s' := Iff.rfl

@[simp] theorem ends_modify {Q : PUnit → σ → Prop} (f : σ → σ) :
    Ends (modify f) s Q E ↔ Q ⟨⟩ (f s) := Iff.rfl

@[simp] theorem ends_modifyGet (f : σ → α × σ) :
    Ends (modifyGet f) s Q E ↔ Q (f s).1 (f s).2 := Iff.rfl

@[simp] theorem ends_bind (c : EStateM ε σ α) (f : α → EStateM ε σ β) :
    Ends (c >>= f) s R E ↔ Ends c s (fun a s' => Ends (f a) s' R E) E := by
  show Ends (EStateM.bind c f) s R E ↔ _
  unfold Ends EStateM.bind
  cases c s <;> rfl

@[simp] theorem ends_ite (p : Prop) [Decidable p] (c d : EStateM ε σ α) :
    Ends (if p then c else d) s Q E ↔ if p then Ends c s Q E else Ends d s Q E := by
  split <;> rfl

/-- The error is replaced by another one. -/
@[simp] theorem ends_adaptExcept {δ : Type} {F : δ → σ → Prop} (f : ε → δ) (c : EStateM ε σ α) :
    Ends (EStateM.adaptExcept f c) s Q F ↔ Ends c s Q fun e s' => F (f e) s' := by
  unfold Ends EStateM.adaptExcept
  cases c s <;> rfl

/-- The rule of consequence. -/
theorem Ends.mono {c : EStateM ε σ α} (h : Ends c s Q E) (hQ : ∀ a s', Q a s' → Q' a s')
    (hE : ∀ e s', E e s' → E' e s') : Ends c s Q' E' := by
  unfold Ends at h ⊢
  cases hc : c s with
  | ok a s' =>
      rw [hc] at h
      exact hQ a s' h
  | error e s' =>
      rw [hc] at h
      exact hE e s' h

/-- Two facts about one run. -/
theorem Ends.and {c : EStateM ε σ α} (h : Ends c s Q E) (h' : Ends c s Q' E') :
    Ends c s (fun a s' => Q a s' ∧ Q' a s') fun e s' => E e s' ∧ E' e s' := by
  unfold Ends at h h' ⊢
  cases hc : c s with
  | ok a s' =>
      rw [hc] at h h'
      exact ⟨h, h'⟩
  | error e s' =>
      rw [hc] at h h'
      exact ⟨h, h'⟩

/-- A command in front of others. -/
theorem Ends.bind {c : EStateM ε σ α} {f : α → EStateM ε σ β} (h : Ends c s Q E)
    (hf : ∀ a s', Q a s' → Ends (f a) s' R E) : Ends (c >>= f) s R E :=
  (ends_bind c f).mpr (h.mono hf fun _ _ he => he)

/-- A run that ended with a result. -/
theorem Ends.of_ok {c : EStateM ε σ α} {a : α} {s' : σ} (h : Ends c s Q E) (hc : c s = .ok a s') :
    Q a s' := by
  unfold Ends at h
  rwa [hc] at h

theorem Ends.of_error {c : EStateM ε σ α} {e : ε} {s' : σ} (h : Ends c s Q E)
    (hc : c s = .error e s') : E e s' := by
  unfold Ends at h
  rwa [hc] at h

end Straight

/-! ### Errors -/

/-- A command whose error is handled, in the state in which it happened. -/
def handle (c : EStateM ε σ α) (f : ε → EStateM ε σ α) : EStateM ε σ α := fun s =>
  match c s with
  | .ok a s' => .ok a s'
  | .error e s' => f e s'

@[simp] theorem ends_handle {s : σ} {Q : α → σ → Prop} {E : ε → σ → Prop} (c : EStateM ε σ α)
    (f : ε → EStateM ε σ α) :
    Ends (handle c f) s Q E ↔ Ends c s Q fun e s' => Ends (f e) s' Q E := by
  unfold Ends handle
  cases c s <;> rfl

/-! ### Parts of the state -/

/-- A command on a part of the state. -/
def within (part : τ → σ) (put : σ → τ → τ) (c : EStateM ε σ α) : EStateM ε τ α := fun t =>
  match c (part t) with
  | .ok a s => .ok a (put s t)
  | .error e s => .error e (put s t)

@[simp] theorem ends_within {part : τ → σ} {put : σ → τ → τ} {c : EStateM ε σ α} {t : τ}
    {Q : α → τ → Prop} {E : ε → τ → Prop} :
    Ends (within part put c) t Q E
      ↔ Ends c (part t) (fun a s => Q a (put s t)) fun e s => E e (put s t) := by
  unfold Ends within
  cases c (part t) <;> rfl

/-! ### Loops -/

/-- A loop whose body says with which value to go on, or what the result is. When the fuel is used
up it ends with the error `stuck`. -/
def loop (stuck : ε) (body : α → EStateM ε σ (α ⊕ β)) : Nat → α → EStateM ε σ β
  | 0, _ => throw stuck
  | fuel + 1, a => do
      match ← body a with
      | .inl a => loop stuck body fuel a
      | .inr b => pure b

/-- A loop with an invariant that holds with a number, and a body that lowers the number. The fuel
is enough where it is above the number at first. -/
theorem ends_loop {stuck : ε} {body : α → EStateM ε σ (α ⊕ β)} {Q : β → σ → Prop}
    {E : ε → σ → Prop} {I : α → σ → Nat → Prop}
    (hbody : ∀ a s n, I a s n →
      Ends (body a) s (Sum.elim (fun a' s' => ∃ n' < n, I a' s' n') Q) E)
    {a : α} {s : σ} {n fuel : Nat} (hI : I a s n) (hfuel : n < fuel) :
    Ends (loop stuck body fuel a) s Q E := by
  induction fuel generalizing a s n with
  | zero => omega
  | succ fuel ih =>
      refine (hbody a s n hI).bind fun r s' hr => ?_
      cases r with
      | inl a' =>
          obtain ⟨n', hn', hI'⟩ := hr
          exact ih hI' (by omega)
      | inr b => exact hr

end DemoOS.Support
