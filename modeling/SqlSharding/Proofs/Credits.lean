import SqlSharding.Proofs.MeteredStatements
import SqlSharding.Proofs.ForwardWalks

/-!
# Credits

Every token that a walk passes pays for some steps. A contract of a metered walk says with how much credit it gets by, and
how much it leaves; a walk that leaves more than it had has passed a token. So contracts of the parts of a walk bound its
steps and show its progress at the same time.
-/

namespace SqlSharding.Sql

/-- Before it has passed a token, a reader calls only readers of lower ranks. -/
def Reader.rank : Reader → Nat
  | group | cases | select => 0
  | expression | tableFactor | query => 1
  | condition | membership | tableReferences => 2
  | conditions => 3

namespace Metered

variable {α β σ : Type}

/-- There is room for calls of the readers below a rank: the depth is enough for them, and none of them is called while an
earlier call of it is open that began with as few tokens left. -/
structure Room (depth : Nat) (calls : List OpenCall) (rank left : Nat) : Prop where
  isDeep : 4 * left + rank ≤ depth
  isFurther : ∀ c ∈ calls, left ≤ c.left ∧ (c.reader.rank < rank → left < c.left)

namespace Room

variable {depth rank rank' left left' : Nat} {calls : List OpenCall} {r : Reader}

theorem mono (room : Room depth calls rank left) (further : left' ≤ left) (lower : rank' ≤ rank) :
    Room depth calls rank' left' where
  isDeep := by
    have := room.isDeep
    omega
  isFurther c open_ := by
    obtain ⟨before, passed⟩ := room.isFurther c open_
    exact ⟨by omega, fun below => by have := passed (by omega); omega⟩

/-- Outside of all calls the depth alone gives room. -/
theorem outside (isDeep : 4 * left + rank ≤ depth) : Room depth [] rank left :=
  ⟨isDeep, fun _ open_ => absurd open_ List.not_mem_nil⟩

/-- Once a token has been passed, there is room for all readers. -/
theorem passed (room : Room depth calls rank left) (further : left' < left) : Room depth calls 4 left' where
  isDeep := by
    have := room.isDeep
    omega
  isFurther c open_ := by
    have := (room.isFurther c open_).1
    exact ⟨by omega, fun _ => by omega⟩

/-- In a call of a reader there is room for the readers below it. -/
theorem call (room : Room (depth + 1) calls (r.rank + 1) left) : Room depth (⟨r, left⟩ :: calls) r.rank left where
  isDeep := by
    have := room.isDeep
    omega
  isFurther c open_ := by
    rcases List.mem_cons.mp open_ with rfl | open_
    · exact ⟨Nat.le_refl _, fun below => absurd below (Nat.lt_irrefl _)⟩
    · obtain ⟨before, passed⟩ := room.isFurther c open_
      exact ⟨before, fun below => passed (by omega)⟩

end Room

/-- The number of steps for which a token pays. -/
def price : Nat := 40

/-- A credit and the tokens pay for the steps of a walk from a state. If it succeeds, they leave a credit and the tokens
that are left; if it fails, the error is genuine. -/
def Paid (m : Metered α) (s : WalkState) (credit : Nat) (rest : α → Nat) : Prop :=
  match m.walk s with
  | .ok a t => t.Genuine ∧ t.left ≤ s.left ∧ m.steps s + rest a + price * t.left ≤ credit + price * s.left
  | .error e _ => e.Genuine ∧ m.steps s ≤ credit + price * s.left

namespace Paid

variable {m n : Metered α} {f : α → Metered β} {s t : WalkState} {credit : Nat} {rest : α → Nat} {rest' : β → Nat} {a : α}
  {e : SyntaxError}

theorem ok_iff (run : m.walk s = .ok a t) :
    Paid m s credit rest ↔ t.Genuine ∧ t.left ≤ s.left ∧ m.steps s + rest a + price * t.left ≤ credit + price * s.left := by
  rw [Paid, run]

theorem error_iff (run : m.walk s = .error e t) :
    Paid m s credit rest ↔ e.Genuine ∧ m.steps s ≤ credit + price * s.left := by
  rw [Paid, run]

/-- A walk that takes more steps to the same end. -/
theorem add (paid : Paid m s credit rest) {more : Nat} (sameWalk : n.walk s = m.walk s) (count : n.steps s = m.steps s + more) :
    Paid n s (credit + more) rest := by
  cases run : m.walk s with
  | error e t =>
    obtain ⟨genuine, enough⟩ := (error_iff run).mp paid
    exact (error_iff (sameWalk.trans run)).mpr ⟨genuine, by omega⟩
  | ok a t =>
    obtain ⟨genuine, further, enough⟩ := (ok_iff run).mp paid
    exact (ok_iff (sameWalk.trans run)).mpr ⟨genuine, further, by omega⟩

theorem weaken {credit' : Nat} {rest' : α → Nat} (paid : Paid m s credit rest) (enough : credit ≤ credit')
    (less : ∀ a, rest' a ≤ credit' - credit + rest a) : Paid m s credit' rest' := by
  cases run : m.walk s with
  | error e t =>
    obtain ⟨genuine, bounded⟩ := (error_iff run).mp paid
    exact (error_iff run).mpr ⟨genuine, by omega⟩
  | ok a t =>
    obtain ⟨genuine, further, bounded⟩ := (ok_iff run).mp paid
    have := less a
    exact (ok_iff run).mpr ⟨genuine, further, by omega⟩

theorem map {g : α → β} (paid : Paid m s credit fun a => rest' (g a)) : Paid (g <$> m) s credit rest' := by
  cases run : m.walk s with
  | error e t =>
    have ends : (g <$> m).walk s = .error e t := by simp only [Functor.map, EStateM.map, run]
    exact (error_iff ends).mpr ((error_iff run).mp paid)
  | ok a t =>
    have ends : (g <$> m).walk s = .ok (g a) t := by simp only [Functor.map, EStateM.map, run]
    exact (ok_iff ends).mpr ((ok_iff run).mp paid)

theorem bind_error (paid : Paid m s credit rest) (run : m.walk s = .error e t) : Paid (m >>= f) s credit rest' := by
  have ends : (m >>= f).walk s = .error e t := by simp only [Bind.bind, EStateM.bind, run]
  have count : (m >>= f).steps s = m.steps s := by simp only [Bind.bind, run, Nat.add_zero]
  rw [error_iff run, ← count] at paid
  exact (error_iff ends).mpr paid

/-- What the first of two walks leaves is what the second one begins with. -/
theorem bind_ok (paid : Paid m s credit rest) (run : m.walk s = .ok a t) (next : Paid (f a) t (rest a) rest') :
    Paid (m >>= f) s credit rest' := by
  obtain ⟨-, further, bounded⟩ := (ok_iff run).mp paid
  have continues : (m >>= f).walk s = (f a).walk t := by simp only [Bind.bind, EStateM.bind, run]
  have count : (m >>= f).steps s = m.steps s + (f a).steps t := by simp only [Bind.bind, run]
  cases run' : (f a).walk t with
  | error e u =>
    obtain ⟨genuine, bounded'⟩ := (error_iff run').mp next
    exact (error_iff (continues.trans run')).mpr ⟨genuine, by omega⟩
  | ok b u =>
    obtain ⟨genuine, further', bounded'⟩ := (ok_iff run').mp next
    exact (ok_iff (continues.trans run')).mpr ⟨genuine, Nat.le_trans further' further, by omega⟩

end Paid

/-- With room for the readers below a rank and a credit at its beginning, a walk makes progress and is paid for. -/
def Pays (depth : Nat) (calls : List OpenCall) (rank : Nat) (m : Metered α) (s : WalkState) (credit : Nat)
    (rest : α → Nat) : Prop :=
  s.Genuine → Room depth calls rank s.left → m.progresses calls s ∧ Paid m s credit rest

/-- The rank below which readers may be called after a walk: if it leaves more than it had, it has passed a token. -/
def rankAfter (rank credit rest : Nat) : Nat := if credit < rest then 4 else rank

/-- A walk gets by with less credit and room than there is. -/
def affords (rank rank' credit credit' : Nat) : Bool := rank.ble rank' && credit.ble credit'

namespace Pays

variable {depth rank rank' credit credit' : Nat} {calls : List OpenCall} {m n : Metered α} {f : α → Metered β}
  {s : WalkState} {rest : α → Nat} {rest' : β → Nat}

theorem le_of_affords (allowed : affords rank rank' credit credit' = true) : rank ≤ rank' ∧ credit ≤ credit' := by
  rw [affords, Bool.and_eq_true] at allowed
  exact ⟨Nat.le_of_ble_eq_true allowed.1, Nat.le_of_ble_eq_true allowed.2⟩

/-! ## Rules -/

theorem pure {b : β} (enough : Nat.ble (rest' b) credit = true) : Pays depth calls rank (Pure.pure b) s credit rest' := by
  intro genuine _
  have := Nat.le_of_ble_eq_true enough
  refine ⟨trivial, genuine, Nat.le_refl _, ?_⟩
  show 0 + rest' b + price * s.left ≤ credit + price * s.left
  omega

theorem bind_of_run (first : Pays depth calls rank m s credit rest) (allowed : affords rank rank' credit credit' = true)
    (next : ∀ a t, m.walk s = .ok a t →
      Pays depth calls (rankAfter rank' credit (rest a)) (f a) t (credit' - credit + rest a) rest') :
    Pays depth calls rank' (m >>= f) s credit' rest' := by
  intro genuine room
  obtain ⟨lower, enough⟩ := le_of_affords allowed
  obtain ⟨progress, paid⟩ := first genuine (room.mono (Nat.le_refl _) lower)
  cases run : m.walk s with
  | error e t =>
    refine ⟨⟨progress, fun a u succeeds => ?_⟩, (paid.weaken enough fun a => Nat.le_refl _).bind_error run⟩
    rw [run] at succeeds
    cases succeeds
  | ok a t =>
    obtain ⟨genuine', further, bounded⟩ := (Paid.ok_iff run).mp paid
    have roomAfter : Room depth calls (rankAfter rank' credit (rest a)) t.left := by
      rw [rankAfter]
      split
      · exact room.passed (Nat.lt_of_mul_lt_mul_left (a := price) (by omega))
      · exact room.mono further (Nat.le_refl _)
    obtain ⟨progress', paid'⟩ := next a t run genuine' roomAfter
    refine ⟨⟨progress, fun b u same => ?_⟩, (paid.weaken enough fun a => Nat.le_refl _).bind_ok run paid'⟩
    rw [run] at same
    cases same
    exact progress'

theorem bind (first : Pays depth calls rank m s credit rest) (allowed : affords rank rank' credit credit' = true)
    (next : ∀ a t, Pays depth calls (rankAfter rank' credit (rest a)) (f a) t (credit' - credit + rest a) rest') :
    Pays depth calls rank' (m >>= f) s credit' rest' :=
  first.bind_of_run allowed fun a t _ => next a t

/-- A walk without loops and calls is one step. The tokens that it passes pay for more. -/
theorem step {w : Walk α} {least : α → Nat} (passes : w.Passes least s) :
    Pays depth calls 0 (liftM w) s 1 fun a => price * least a := by
  intro genuine _
  refine ⟨trivial, ?_⟩
  have after := passes genuine
  cases run : w s with
  | error e t =>
    rw [run] at after
    exact (Paid.error_iff run).mpr ⟨after, Nat.le_add_right _ _⟩
  | ok a t =>
    rw [run] at after
    obtain ⟨genuine', further⟩ := after
    refine (Paid.ok_iff run).mpr ⟨genuine', Nat.le_of_add_right_le further, ?_⟩
    have := Nat.mul_le_mul_left price further
    rw [Nat.mul_add] at this
    show 1 + price * least a + price * t.left ≤ 1 + price * s.left
    omega

theorem weaken {less : α → Nat} (pays : Pays depth calls rank m s credit rest)
    (allowed : affords rank rank' credit credit' = true) (fewer : ∀ a, less a ≤ credit' - credit + rest a) :
    Pays depth calls rank' m s credit' less := by
  intro genuine room
  obtain ⟨lower, enough⟩ := le_of_affords allowed
  obtain ⟨progress, paid⟩ := pays genuine (room.mono (Nat.le_refl _) lower)
  exact ⟨progress, paid.weaken enough fewer⟩

/-- The same if it is known what is left. -/
theorem leaving {left less : Nat} (pays : Pays depth calls rank m s credit fun _ => left)
    (allowed : affords rank rank' credit credit' = true) (fewer : less.ble (credit' - credit + left) = true) :
    Pays depth calls rank' m s credit' fun _ => less :=
  pays.weaken allowed fun _ => Nat.le_of_ble_eq_true fewer

theorem map {g : α → β} (pays : Pays depth calls rank m s credit fun a => rest' (g a)) :
    Pays depth calls rank (g <$> m) s credit rest' := fun genuine room =>
  ⟨(pays genuine room).1, (pays genuine room).2.map⟩

theorem discard {left : Nat} (pays : Pays depth calls rank m s credit fun _ => left) :
    Pays depth calls rank (discard m) s credit fun _ => left :=
  pays.map

/-- A step that moves nothing leaves what is known of the state. -/
theorem sees {w : Walk α} (passes : w.Passes (fun _ => 0) s) (stays : ∀ a t, w s = .ok a t → t = s)
    (enough : Nat.ble 1 credit = true) (next : ∀ a, w s = .ok a s → Pays depth calls rank (f a) s (credit - 1) rest') :
    Pays depth calls rank (liftM w >>= f) s credit rest' := by
  have allowed : affords 0 rank 1 credit = true := by simpa [affords] using enough
  refine (step passes).bind_of_run allowed fun a t run => ?_
  obtain rfl := stays a t run
  exact next a run

/-- Looking at the next token moves nothing. -/
theorem peek {f : TokenKind → Metered β} (enough : Nat.ble 1 credit = true)
    (next : ∀ k, Pays depth calls rank (f k) s (credit - 1) rest') : Pays depth calls rank (liftM Walk.peek >>= f) s credit rest' :=
  sees .peek (fun _ _ run => (Walk.peek_eq_ok_iff.mp run).2) enough fun k _ => next k

/-- Looking for a join moves nothing. -/
theorem atJoin {f : Bool → Metered β} (enough : Nat.ble 1 credit = true)
    (next : ∀ found, Walk.atJoin s = .ok found s → Pays depth calls rank (f found) s (credit - 1) rest') :
    Pays depth calls rank (liftM Walk.atJoin >>= f) s credit rest' :=
  sees .atJoin (fun _ _ run => (Walk.atJoin_stays run).1) enough next

theorem fails {w : Walk α} (passes : w.Passes (fun _ => 0) s) (fails : w.Fails) (enough : Nat.ble 1 credit = true) :
    Pays depth calls rank (liftM w) s credit rest := by
  intro genuine room
  have after := passes genuine
  cases run : w s with
  | ok a t => exact absurd run (fails s a t)
  | error e t =>
    rw [run] at after
    refine ⟨trivial, (Paid.error_iff run).mpr ⟨after, ?_⟩⟩
    exact Nat.le_trans (Nat.le_of_ble_eq_true enough) (Nat.le_add_right ..)

theorem failExpected {what : Expectation} (enough : Nat.ble 1 credit = true) :
    Pays depth calls rank (liftM (Walk.failExpected what)) s credit rest :=
  fails .failExpected Walk.failExpected_fails enough

/-- A walk that only looks at the state. -/
theorem look {w : Walk α} {a : α} (looks : w s = .ok a s) (enough : Nat.ble 1 credit = true)
    (next : Pays depth calls rank (f a) s (credit - 1) rest') : Pays depth calls rank (liftM w >>= f) s credit rest' := by
  refine sees (.looking looks) (fun b t run => ?_) enough fun b run => ?_
  · rw [looks] at run
    cases run
    rfl
  · rw [looks] at run
    cases run
    exact next

theorem branch {c : Prop} [Decidable c] (yes : c → Pays depth calls rank m s credit rest)
    (no : ¬ c → Pays depth calls rank n s credit rest) : Pays depth calls rank (if c then m else n) s credit rest := by
  split
  · next holds => exact yes holds
  · next fails => exact no fails

/-! ## Loops and calls -/

/-- The credit after a round of a loop: a round that goes on leaves more than it had. -/
def roundRest (credit left : Nat) (again : Bool) : Nat := if again then credit + 1 else left

theorem round {body : Metered (Bool × σ)} {left : Nat}
    (pays : Pays depth calls rank body s credit fun r => roundRest credit left r.1) :
    Pays depth calls rank (round body) s (credit + 1) fun r => roundRest credit left r.1 := by
  intro genuine room
  obtain ⟨progress, paid⟩ := pays genuine room
  refine ⟨⟨progress, fun x t run => ?_⟩, paid.add rfl rfl⟩
  have gains : body.steps s + (credit + 1) + price * t.left ≤ credit + price * s.left := ((Paid.ok_iff run).mp paid).2.2
  exact Nat.lt_of_mul_lt_mul_left (a := price) (by show price * t.left < price * s.left; omega)

/-- The tokens that are left bound the rounds. -/
theorem iterate {body : σ → Metered (Bool × σ)} {left : Nat}
    (pays : ∀ x t, Pays depth calls rank (body x) t credit fun r => roundRest credit left r.1) :
    ∀ n x s, s.left < n → Pays depth calls rank (iterate body n x) s (credit + 1) fun _ => left := by
  intro n
  induction n with
  | zero => exact fun _ _ enough => absurd enough (Nat.not_lt_zero _)
  | succ n ih =>
    intro x s enough genuine room
    have first := (pays x s).round
    have fair : affords rank rank (credit + 1) (credit + 1) = true := by simp [affords]
    refine first.bind_of_run fair (fun (again, y) t run => ?_) genuine room
    cases again with
    | false => exact pure (by simp [roundRest])
    | true =>
      -- A round that goes on has earned the credit of the next one, with a token fewer left.
      have further : t.left < s.left := (first genuine room).1.2 y t run
      have rest : rankAfter rank (credit + 1) (credit + 1) = rank := if_neg (Nat.lt_irrefl _)
      have left : credit + 1 - (credit + 1) + (credit + 1) = credit + 1 := by omega
      show Pays depth calls (rankAfter rank (credit + 1) (credit + 1)) _ t (credit + 1 - (credit + 1) + (credit + 1)) _
      rw [rest, left]
      exact ih y t (by omega)

theorem repeatFrom {body : σ → Metered (Bool × σ)} {x : σ} {left : Nat}
    (pays : ∀ x t, Pays depth calls rank (body x) t credit fun r => roundRest credit left r.1) :
    Pays depth calls rank (repeatFrom x body) s (credit + 2) fun _ => left :=
  look rfl (Nat.ble_eq_true_of_le (Nat.le_add_left ..)) (iterate pays _ x s (Nat.lt_succ_self _))

theorem repeatWhile {body : Metered Bool} {left : Nat}
    (pays : ∀ t, Pays depth calls rank body t credit (roundRest credit left)) :
    Pays depth calls rank (repeatWhile body) s (credit + 2) fun _ => left :=
  repeatFrom fun _ t => map (pays t)

/-- A loop in the middle of a walk, with the credit before each round and the credit after the last one. -/
theorem loopFrom (credit left : Nat) {body : σ → Metered (Bool × σ)} {x : σ}
    (pays : ∀ x t, Pays depth calls 0 (body x) t credit fun r => roundRest credit left r.1) :
    Pays depth calls 0 (Metered.repeatFrom x body) s (credit + 2) fun _ => left :=
  repeatFrom pays

theorem loop (credit left : Nat) {body : Metered Bool}
    (pays : ∀ t, Pays depth calls 0 body t credit (roundRest credit left)) :
    Pays depth calls 0 (Metered.repeatWhile body) s (credit + 2) fun _ => left :=
  repeatWhile pays

theorem call {r : Reader} (pays : Pays depth (⟨r, s.left⟩ :: calls) r.rank m s credit rest) :
    Pays (depth + 1) calls (r.rank + 1) (call r m) s (credit + 1) rest := by
  intro genuine room
  obtain ⟨progress, paid⟩ := pays genuine room.call
  refine ⟨⟨fun c open_ same => ?_, progress⟩, paid.add rfl rfl⟩
  exact (room.isFurther c open_).2 (by rw [same]; exact Nat.lt_succ_self _)

/-- The end of a round that may go on or not. -/
theorem endRound {again : Bool} {x : σ} {left : Nat} (enough : Nat.ble (credit + 1) credit' = true)
    (enough' : Nat.ble left credit' = true) :
    Pays depth calls rank (Pure.pure (again, x)) s credit' fun r => roundRest credit left r.1 := by
  cases again with
  | true => exact pure enough
  | false => exact pure enough'

/-! ## Optional parts -/

/-- More credit than is needed. -/
theorem afford {enough : Nat} (pays : Pays depth calls rank m s enough rest) (le : enough ≤ credit) :
    Pays depth calls rank m s credit rest := by
  intro genuine room
  obtain ⟨progress, paid⟩ := pays genuine room
  exact ⟨progress, paid.weaken le fun a => Nat.le_add_left ..⟩

/-- A part before more steps that may be left out. -/
theorem perhaps {c : Prop} [Decidable c] {part : Metered Unit} {f : Unit → Metered β}
    (pays : Pays depth calls rank part s credit fun _ => 0) (allowed : affords rank rank' credit credit' = true)
    (next : ∀ t, Pays depth calls rank' (f ()) t (credit' - credit) rest') :
    Pays depth calls rank' (if c then part >>= f else f ()) s credit' rest' := by
  refine branch (fun _ => pays.bind allowed fun _ t => ?_) fun _ => (next s).afford (Nat.sub_le ..)
  rw [rankAfter, if_neg (Nat.not_lt_zero _)]
  exact next t

/-- Reading on in two ways, one of them after a token that has been passed, the other one in the same state. -/
theorem eatWith {w : Walk Bool} {yes no : Metered α} (passes : w.Passes (fun found => if found = true then 1 else 0) s)
    (stays : ∀ t, w s = .ok false t → t = s) (enough : Nat.ble 1 credit = true)
    (found : ∀ t, Pays depth calls 4 yes t (credit - 1 + price) rest)
    (missing : Pays depth calls rank no s (credit - 1) rest) :
    Pays depth calls rank (liftM w >>= fun found => if found = true then yes else no) s credit rest := by
  have allowed : affords 0 rank 1 credit = true := by simpa [affords] using enough
  refine (step passes).bind_of_run allowed fun isFound t run => ?_
  cases isFound with
  | true => exact found t
  | false =>
    obtain rfl := stays t run
    exact missing

theorem eat {k : TokenKind} {yes no : Metered α} (inside : TokenKind.endOfInput.sameShape k = false)
    (enough : Nat.ble 1 credit = true) (found : ∀ t, Pays depth calls 4 yes t (credit - 1 + price) rest)
    (missing : Pays depth calls rank no s (credit - 1) rest) :
    Pays depth calls rank (liftM (Walk.eat k) >>= fun found => if found = true then yes else no) s credit rest :=
  eatWith (.eat inside) (fun _ => Walk.Passes.eat_stays) enough found missing

theorem eatAny {ks : List TokenKind} {yes no : Metered α} (inside : ks.any TokenKind.endOfInput.sameShape = false)
    (enough : Nat.ble 1 credit = true) (found : ∀ t, Pays depth calls 4 yes t (credit - 1 + price) rest)
    (missing : Pays depth calls rank no s (credit - 1) rest) :
    Pays depth calls rank (liftM (Walk.eatAny ks) >>= fun found => if found = true then yes else no) s credit rest :=
  eatWith (.eatAny inside) (fun _ => Walk.Passes.eatAny_stays) enough found missing

theorem optional {k : TokenKind} {part : Metered Unit} (inside : TokenKind.endOfInput.sameShape k = false)
    (pays : ∀ t, Pays depth calls 4 part t price fun _ => 0) :
    Pays depth calls 0 (optional k part) s 1 fun _ => 0 :=
  eat inside rfl pays (pure rfl)

end Pays

end Metered

end SqlSharding.Sql
