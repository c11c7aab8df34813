import SqlSharding.Sql.Walk

/-!
# Metered walks

A walk with a meter beside it. The meter counts the steps that the walk takes from a state, and says whether the walk
makes progress there: each round of a loop that goes on has passed a token, and a reader that is called while an earlier
call of it is open finds fewer tokens left than that call did. Without its meter a metered walk is a plain one.
-/

namespace SqlSharding.Sql

/-- The readers that contain one another. -/
inductive Reader where
  | expression | group | cases | membership | condition | conditions | tableFactor | tableReferences | select | query
  deriving DecidableEq

/-- A call of a reader that has not ended, with the number of tokens that were left when it began. -/
structure OpenCall where
  reader : Reader
  left : Nat

structure Metered (α : Type) where
  walk : Walk α
  /-- The number of steps from a state. -/
  steps : WalkState → Nat
  /-- Whether there is progress from a state while some calls are open. -/
  progresses : List OpenCall → WalkState → Prop

namespace Metered

variable {α β σ : Type}

/-- A walk without loops and calls counts as one step. -/
def step (m : Walk α) : Metered α := ⟨m, fun _ => 1, fun _ _ => True⟩

instance : MonadLift Walk Metered := ⟨step⟩

instance : Monad Metered where
  pure a := ⟨pure a, fun _ => 0, fun _ _ => True⟩
  map f m := ⟨f <$> m.walk, m.steps, m.progresses⟩
  bind m f :=
    { walk := m.walk >>= fun a => (f a).walk
      steps := fun s => m.steps s +
        match m.walk s with
        | .ok a t => (f a).steps t
        | .error .. => 0
      progresses := fun calls s => m.progresses calls s ∧ ∀ a t, m.walk s = .ok a t → (f a).progresses calls t }

/-- Gives up, which is no progress. -/
def giveUp : Metered α := ⟨Walk.failTooDeep, fun _ => 0, fun _ _ => False⟩

/-- A round of a loop. -/
def round (m : Metered (Bool × σ)) : Metered (Bool × σ) where
  walk := m.walk
  steps s := m.steps s + 1
  progresses calls s := m.progresses calls s ∧
    ∀ x t, m.walk s = .ok (true, x) t → t.cursor.remaining < s.cursor.remaining

/-- A call of a reader. -/
def call (r : Reader) (m : Metered α) : Metered α where
  walk := m.walk
  steps s := m.steps s + 1
  progresses calls s := (∀ c ∈ calls, c.reader = r → s.cursor.remaining < c.left) ∧
    m.progresses (⟨r, s.cursor.remaining⟩ :: calls) s

/-! ## Loops -/

def iterate (body : σ → Metered (Bool × σ)) : Nat → σ → Metered σ
  | 0, _ => giveUp
  | n + 1, x => do
    let (again, y) ← round (body x)
    if again then iterate body n y else return y

def repeatFrom (x : σ) (body : σ → Metered (Bool × σ)) : Metered σ := do
  iterate body ((← Walk.cursor).remaining + 1) x

def repeatWhile (body : Metered Bool) : Metered Unit := repeatFrom () fun _ => (·, ()) <$> body

/-- Reads on after a token of the given shape if one stands here. -/
def optional (k : TokenKind) (m : Metered Unit) : Metered Unit := do
  if ← Walk.eat k then m

/-! ## Without the meter -/

section walk

@[simp] theorem walk_lift (m : Walk α) : (liftM m : Metered α).walk = m := rfl

@[simp] theorem walk_pure (a : α) : (pure a : Metered α).walk = pure a := rfl

@[simp] theorem walk_map (f : α → β) (m : Metered α) : (f <$> m).walk = f <$> m.walk := rfl

@[simp] theorem walk_discard (m : Metered α) : (discard m).walk = discard m.walk := rfl

@[simp] theorem walk_bind (m : Metered α) (f : α → Metered β) : (m >>= f).walk = m.walk >>= fun a => (f a).walk := rfl

@[simp] theorem walk_ite {c : Prop} [Decidable c] (m n : Metered α) :
    (if c then m else n).walk = if c then m.walk else n.walk := by
  split <;> rfl

@[simp] theorem walk_giveUp : (giveUp : Metered α).walk = Walk.failTooDeep := rfl

@[simp] theorem walk_call (r : Reader) (m : Metered α) : (call r m).walk = m.walk := rfl

theorem walk_iterate (body : σ → Metered (Bool × σ)) (n : Nat) (x : σ) :
    (iterate body n x).walk = Walk.iterate (fun y => (body y).walk) n x := by
  induction n generalizing x with
  | zero => rfl
  | succ n ih =>
    simp only [iterate, Walk.iterate, walk_bind, walk_ite, walk_pure, ih]
    rfl

@[simp] theorem walk_repeatFrom (x : σ) (body : σ → Metered (Bool × σ)) :
    (repeatFrom x body).walk = Walk.repeatFrom x fun y => (body y).walk := by
  simp only [repeatFrom, Walk.repeatFrom, walk_bind, walk_iterate]
  rfl

@[simp] theorem walk_repeatWhile (body : Metered Bool) : (repeatWhile body).walk = Walk.repeatWhile body.walk := by
  simp only [repeatWhile, Walk.repeatWhile, walk_repeatFrom, walk_map]

/-- Two walks in sequence, each with its meter. -/
theorem walk_seq {m : Metered α} {w : Walk α} {f : α → Metered β} {g : α → Walk β} (first : m.walk = w)
    (next : ∀ a, (f a).walk = g a) : (m >>= f).walk = w >>= g := by
  rw [walk_bind, first, funext next]

theorem walk_branch {c : Prop} [Decidable c] {m n : Metered α} {w v : Walk α} (yes : m.walk = w) (no : n.walk = v) :
    (if c then m else n).walk = if c then w else v := by
  rw [walk_ite, yes, no]

/-- A step before more steps that may be left out. -/
theorem walk_perhaps {c : Prop} [Decidable c] {m : Metered Unit} {w : Walk Unit} {f : Unit → Metered β} {g : Unit → Walk β}
    (step : m.walk = w) (next : (f ()).walk = g ()) :
    (if c then m >>= f else f ()).walk = if c then w >>= g else g () :=
  walk_branch (walk_seq step fun _ => next) next

theorem walk_optional {k : TokenKind} {m : Metered Unit} {w : Walk Unit} (rest : m.walk = w) :
    (optional k m).walk = Walk.eat k >>= fun found => if found = true then w else pure () :=
  walk_seq rfl fun _ => walk_branch rest rfl

/-- What may be left out, before more steps. -/
theorem walk_optional_seq {k : TokenKind} {m : Metered Unit} {w : Walk Unit} {f : Unit → Metered β} {g : Unit → Walk β}
    (rest : m.walk = w) (next : (f ()).walk = g ()) :
    (optional k m >>= f).walk = Walk.eat k >>= fun found => if found = true then w >>= g else g () := by
  rw [walk_bind, walk_optional rest, bind_assoc]
  congr 1
  funext found
  split
  · next => exact congrArg (w >>= ·) (funext fun _ => next)
  · next => exact (pure_bind ..).trans next

end walk

end Metered

end SqlSharding.Sql
