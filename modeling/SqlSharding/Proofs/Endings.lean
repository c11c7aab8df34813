import Mathlib

/-!
# How actions end

An action on a state ends with a result or with a failure, and keeps what it did up to there. A contract says what holds at
either end. Contracts of the parts of an action give one of the whole.
-/

namespace SqlSharding

/-- From a state with the first property, an action ends with a result for which the second one holds, or with a failure for
which the third one does. -/
def Ends {ε σ α : Type} (P : σ → Prop) (x : EStateM ε σ α) (Q : α → σ → Prop) (E : ε → σ → Prop) : Prop :=
  ∀ s, P s → match x s with
    | .ok a t => Q a t
    | .error e t => E e t

namespace Ends

variable {ε σ α β : Type} {P : σ → Prop} {x y : EStateM ε σ α} {Q Q' : α → σ → Prop} {R : β → σ → Prop}
  {E E' : ε → σ → Prop} {I : σ → Prop}

theorem result (ends : Ends P x Q E) {s t : σ} {a : α} (holds : P s) (run : x s = .ok a t) : Q a t := by
  have atEnd := ends s holds
  rw [run] at atEnd
  exact atEnd

theorem failure (ends : Ends P x Q E) {s t : σ} {e : ε} (holds : P s) (run : x s = .error e t) : E e t := by
  have atEnd := ends s holds
  rw [run] at atEnd
  exact atEnd

/-- Less is asked for at the ends. -/
theorem weaken (ends : Ends P x Q E) (after : ∀ a s, Q a s → Q' a s) (failed : ∀ e s, E e s → E' e s) : Ends P x Q' E' := by
  intro s holds
  have atEnd := ends s holds
  split
  · next run =>
    rw [run] at atEnd
    exact after _ _ atEnd
  · next run =>
    rw [run] at atEnd
    exact failed _ _ atEnd

/-- Less is asked for at the end with a result. -/
theorem after (ends : Ends P x Q E) (weaker : ∀ a s, Q a s → Q' a s) : Ends P x Q' E :=
  ends.weaken weaker fun _ _ => id

/-- Less is asked for at the end with a failure. -/
theorem failing (ends : Ends P x Q E) (weaker : ∀ e s, E e s → E' e s) : Ends P x Q E' :=
  ends.weaken (fun _ _ => id) weaker

theorem pure {a : α} (holds : ∀ s, P s → Q a s) : Ends P (Pure.pure a) Q E := holds

theorem throw {e : ε} (holds : ∀ s, P s → E e s) : Ends P (MonadExcept.throw e) Q E := holds

theorem bind {f : α → EStateM ε σ β} (first : Ends P x Q E) (next : ∀ a, Ends (Q a) (f a) R E) : Ends P (x >>= f) R E := by
  intro s holds
  have atEnd := first s holds
  simp only [Bind.bind, EStateM.bind]
  cases run : x s with
  | ok a t =>
    rw [run] at atEnd
    exact next a t atEnd
  | error e t =>
    rw [run] at atEnd
    exact atEnd

theorem anyhow : Ends P x (fun _ _ => True) (fun _ _ => True) := by
  intro s _
  cases x s <;> trivial

/-- What is known before an action and does not depend on the state is known of all it does. -/
theorem assuming {known : Prop} (ends : known → Ends (fun _ => True) x Q E) : Ends (fun _ => known) x Q E :=
  fun s holds => ends holds s trivial

/-- The same if more is known of the state. -/
theorem given {known : Prop} (ends : known → Ends P x Q E) : Ends (fun s => known ∧ P s) x Q E :=
  fun s holds => ends holds.1 s holds.2

theorem map {f : α → β} (ends : Ends P x (fun a => R (f a)) E) : Ends P (f <$> x) R E := by
  intro s holds
  have atEnd := ends s holds
  simp only [Functor.map, EStateM.map]
  cases run : x s with
  | ok a t =>
    rw [run] at atEnd
    exact atEnd
  | error e t =>
    rw [run] at atEnd
    exact atEnd

theorem branch {c : Prop} [Decidable c] (yes : c → Ends P x Q E) (no : ¬ c → Ends P y Q E) :
    Ends P (if c then x else y) Q E := by
  split
  · next holds => exact yes holds
  · next fails => exact no fails

theorem ite {c : Prop} [Decidable c] (yes : Ends P x Q E) (no : Ends P y Q E) : Ends P (if c then x else y) Q E :=
  branch (fun _ => yes) fun _ => no

/-- What each action of a list keeps, all of them keep one after the other. -/
theorem mapM {f : α → EStateM ε σ β} {xs : List α} (each : ∀ a ∈ xs, Ends I (f a) (fun _ => I) E) :
    Ends I (xs.mapM f) (fun _ => I) E := by
  induction xs with
  | nil =>
    rw [List.mapM_nil]
    exact pure fun _ => id
  | cons a xs ih =>
    rw [List.mapM_cons]
    refine (each a List.mem_cons_self).bind fun _ => ?_
    exact (ih fun b member => each b (List.mem_cons_of_mem a member)).bind fun _ => pure fun _ => id

/-- What holds after the actions of a list may depend on those that were taken. A failure is that of the first one that
fails. -/
theorem mapM_along {f : α → EStateM ε σ β} {J : List α → σ → Prop} {F : List α → α → ε → σ → Prop} {xs before : List α}
    (each : ∀ done a, Ends (J done) (f a) (fun _ => J (done ++ [a])) (F done a)) :
    Ends (J before) (xs.mapM f) (fun _ => J (before ++ xs))
      fun e s => ∃ done a rest, xs = done ++ a :: rest ∧ F (before ++ done) a e s := by
  induction xs generalizing before with
  | nil =>
    rw [List.mapM_nil, List.append_nil]
    exact pure fun _ => id
  | cons a xs ih =>
    rw [List.mapM_cons]
    refine ((each before a).failing fun e s fails => ⟨[], a, xs, rfl, by rwa [List.append_nil]⟩).bind fun _ => ?_
    refine (ih.weaken (fun bs s holds => ?_) ?_).bind fun _ => pure fun _ => id
    · rwa [List.append_assoc] at holds
    · rintro e s ⟨done, x, rest, rfl, fails⟩
      exact ⟨a :: done, x, rest, rfl, by rwa [List.append_assoc] at fails⟩

/-! ## Invariants -/

end Ends

/-- Whether it fails or not, an action keeps a property of the state. -/
def Preserves {ε σ α : Type} (I : σ → Prop) (x : EStateM ε σ α) : Prop := Ends I x (fun _ => I) fun _ => I

namespace Preserves

variable {ε σ α β : Type} {I : σ → Prop} {x y : EStateM ε σ α}

theorem pure {a : α} : Preserves I (Pure.pure a : EStateM ε σ α) := Ends.pure fun _ => id

theorem throw {e : ε} : Preserves I (MonadExcept.throw e : EStateM ε σ α) := Ends.throw fun _ => id

theorem bind {f : α → EStateM ε σ β} (first : Preserves I x) (next : ∀ a, Preserves I (f a)) : Preserves I (x >>= f) :=
  Ends.bind first next

theorem ite {c : Prop} [Decidable c] (yes : Preserves I x) (no : Preserves I y) : Preserves I (if c then x else y) :=
  Ends.ite yes no

theorem mapM {f : α → EStateM ε σ β} {xs : List α} (each : ∀ a ∈ xs, Preserves I (f a)) : Preserves I (xs.mapM f) :=
  Ends.mapM each

/-- What an action keeps does not depend on the result that is made of its own. -/
theorem of_return {f : α → β} (keeps : Preserves I (x >>= fun a => Pure.pure (f a))) : Preserves I x := by
  intro s holds
  have atEnd := keeps s holds
  simp only [Bind.bind, EStateM.bind] at atEnd
  cases run : x s with
  | ok a t | error e t =>
    rw [run] at atEnd
    exact atEnd

theorem forM {f : α → EStateM ε σ PUnit} {xs : List α} (each : ∀ a ∈ xs, Preserves I (f a)) : Preserves I (xs.forM f) := by
  induction xs with
  | nil => exact pure
  | cons a xs ih =>
    exact (each a List.mem_cons_self).bind fun _ => ih fun b member => each b (List.mem_cons_of_mem a member)

end Preserves

end SqlSharding
