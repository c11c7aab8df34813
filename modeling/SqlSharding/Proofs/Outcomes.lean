import Mathlib.Data.List.Forall2
import SqlSharding.Failure

/-!
# Outcomes in sequence

What a successful computation says of its parts: a sequence succeeds when each step does, and a list of outcomes when
each element does.
-/

namespace SqlSharding

variable {α β ε : Type}

theorem bind_eq_ok_iff {x : Except ε α} {f : α → Except ε β} {b : β} :
    x >>= f = .ok b ↔ ∃ a, x = .ok a ∧ f a = .ok b := by
  cases x with
  | error e => simp [bind, Except.bind]
  | ok a => simp [bind, Except.bind]

theorem pure_eq_ok_iff {a b : α} : (pure a : Except ε α) = .ok b ↔ a = b := by
  simp [pure, Except.pure]

theorem elim_eq_ok_iff {o : Option α} {e : ε} {a : α} : o.elim (.error e) .ok = (.ok a : Except ε α) ↔ o = some a := by
  cases o <;> simp

/-- The results of a list of outcomes stand beside what they came from. -/
theorem forall₂_of_mapM_eq_ok {f : α → Except ε β} {xs : List α} {ys : List β} (run : xs.mapM f = .ok ys) :
    List.Forall₂ (fun x y => f x = .ok y) xs ys := by
  induction xs generalizing ys with
  | nil =>
    rw [List.mapM_nil, pure_eq_ok_iff] at run
    subst run
    exact .nil
  | cons x xs ih =>
    rw [List.mapM_cons] at run
    obtain ⟨y, first, run⟩ := bind_eq_ok_iff.mp run
    obtain ⟨rest, others, run⟩ := bind_eq_ok_iff.mp run
    obtain rfl := pure_eq_ok_iff.mp run
    exact .cons first (ih others)

theorem exists_of_forall₂ {R : α → β → Prop} {xs : List α} {ys : List β} (each : List.Forall₂ R xs ys) {y : β}
    (member : y ∈ ys) : ∃ x ∈ xs, R x y := by
  induction each with
  | nil => cases member
  | cons first _ ih =>
    rcases List.mem_cons.mp member with rfl | later
    · exact ⟨_, List.mem_cons_self, first⟩
    · obtain ⟨x, found, related⟩ := ih later
      exact ⟨x, List.mem_cons_of_mem _ found, related⟩

theorem mem_of_mapM_eq_ok {f : α → Except ε β} {xs : List α} {ys : List β} (run : xs.mapM f = .ok ys) {x : α}
    (member : x ∈ xs) : ∃ y ∈ ys, f x = .ok y :=
  exists_of_forall₂ (forall₂_of_mapM_eq_ok run).flip member

theorem exists_of_mem_mapM {f : α → Except ε β} {xs : List α} {ys : List β} (run : xs.mapM f = .ok ys) {y : β}
    (member : y ∈ ys) : ∃ x ∈ xs, f x = .ok y :=
  exists_of_forall₂ (forall₂_of_mapM_eq_ok run) member

/-- A list of outcomes succeeds unless an element fails, with that element's failure. -/
theorem mapM_cases (f : α → Except ε β) (xs : List α) :
    (∃ ys, xs.mapM f = .ok ys) ∨ ∃ x ∈ xs, ∃ e, f x = .error e ∧ xs.mapM f = .error e := by
  induction xs with
  | nil => exact .inl ⟨[], rfl⟩
  | cons x xs ih =>
    rw [List.mapM_cons]
    cases first : f x with
    | error e => exact .inr ⟨x, List.mem_cons_self, e, first, rfl⟩
    | ok y =>
      rcases ih with ⟨ys, run⟩ | ⟨x', member, e, failed, run⟩
      · rw [run]
        exact .inl ⟨y :: ys, rfl⟩
      · rw [run]
        exact .inr ⟨x', List.mem_cons_of_mem x member, e, failed, rfl⟩

end SqlSharding
