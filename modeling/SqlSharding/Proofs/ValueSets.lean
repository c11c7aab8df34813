import SqlSharding.Proofs.Pruning

/-!
# Lists of values as sets

A column that is pinned to a list is pinned to the set of its values. Which target a value has does not depend on the values
beside it, and the chosen targets are brought into the order of the available ones; so a list in another order or with
repetitions has the same targets, or else both lists have a value without a target (`resolve_of_alike`).
-/

namespace SqlSharding

variable {α β γ δ ε : Type}

/-! ## Outcomes that agree -/

/-- Two outcomes agree if both are results and these are related, or if both are failures. -/
inductive Agree (R : α → β → Prop) : Except ε α → Except ε β → Prop
  | ok {a : α} {b : β} (related : R a b) : Agree R (.ok a) (.ok b)
  | error {e e' : ε} : Agree R (.error e) (.error e')

namespace Agree

variable {R : α → β → Prop} {S : γ → δ → Prop} {x : Except ε α} {y : Except ε β}

theorem refl {R : α → α → Prop} (reflexive : ∀ a, R a a) (x : Except ε α) : Agree R x x := by
  cases x with
  | ok a => exact .ok (reflexive a)
  | error e => exact .error

theorem bind {f : α → Except ε γ} {g : β → Except ε δ} (agree : Agree R x y) (next : ∀ a b, R a b → Agree S (f a) (g b)) :
    Agree S (x >>= f) (y >>= g) := by
  cases agree with
  | ok related => exact next _ _ related
  | error => exact .error

theorem toOption_eq {x y : Except ε α} (agree : Agree Eq x y) : x.toOption = y.toOption := by
  cases agree with
  | ok same => exact congrArg some same
  | error => rfl

end Agree

/-- Lists of the same elements, in any order and with any repetitions. -/
def SameMembers (xs ys : List α) : Prop := ∀ x, x ∈ xs ↔ x ∈ ys

namespace SameMembers

variable {xs ys : List α}

theorem refl (xs : List α) : SameMembers xs xs := fun _ => Iff.rfl

/-- Lists of the same elements have the same results, or each has an element that fails. -/
theorem mapM (same : SameMembers xs ys) (f : α → Except ε β) : Agree SameMembers (xs.mapM f) (ys.mapM f) := by
  have carried {xs ys : List α} {as bs : List β} (subset : ∀ x ∈ xs, x ∈ ys) (run : xs.mapM f = .ok as)
      (run' : ys.mapM f = .ok bs) : ∀ b ∈ as, b ∈ bs := by
    intro b member
    obtain ⟨x, inXs, ofX⟩ := exists_of_mem_mapM run member
    obtain ⟨c, found, ofX'⟩ := mem_of_mapM_eq_ok run' (subset x inXs)
    obtain rfl : c = b := Except.ok.inj (ofX'.symm.trans ofX)
    exact found
  have fails {xs ys : List α} {as : List β} {x : α} {e : ε} (run : ys.mapM f = .ok as) (subset : ∀ x ∈ xs, x ∈ ys)
      (member : x ∈ xs) (failed : f x = .error e) : False := by
    obtain ⟨c, -, ofX⟩ := mem_of_mapM_eq_ok run (subset x member)
    rw [failed] at ofX
    cases ofX
  have ahead : ∀ x ∈ xs, x ∈ ys := fun x => (same x).mp
  have back : ∀ x ∈ ys, x ∈ xs := fun x => (same x).mpr
  rcases mapM_cases f xs with ⟨as, run⟩ | ⟨x, member, e, failed, run⟩ <;>
    rcases mapM_cases f ys with ⟨bs, run'⟩ | ⟨y, member', e', failed', run'⟩
  · rw [run, run']
    exact .ok fun b => ⟨carried ahead run run' b, carried back run' run b⟩
  · exact (fails run back member' failed').elim
  · exact (fails run' ahead member failed).elim
  · rw [run, run']
    exact .error

theorem map (same : SameMembers xs ys) (f : α → β) : SameMembers (xs.map f) (ys.map f) := by
  intro b
  simp only [List.mem_map, same _]

theorem flatMap (same : SameMembers xs ys) {f g : α → List β} (each : ∀ x, SameMembers (f x) (g x)) :
    SameMembers (xs.flatMap f) (ys.flatMap g) := by
  intro b
  simp only [List.mem_flatMap, same _, each _ b]

end SameMembers

namespace Routing

/-! ## Pins that admit the same values -/

/-- Pins are alike if they differ at most in the order and the repetitions of the values of a list. -/
inductive Pin.Alike : Pin → Pin → Prop
  | same (pin : Pin) : Alike pin pin
  | lists {vs ws : List Value} (same : SameMembers vs ws) : Alike (.list vs) (.list ws)

/-- The same columns, with pins that are alike. -/
def AlikePins (pins pins' : Pins) : Prop := List.Forall₂ (fun x y => x.1 = y.1 ∧ x.2.Alike y.2) pins pins'

namespace Algorithm

variable {logicName : String} {available chosen chosen' : List String} {pin pin' : Pin} {pins pins' : Pins}

theorem inAvailableOrder_congr (same : SameMembers chosen chosen') :
    inAvailableOrder available chosen = inAvailableOrder available chosen' :=
  List.filter_congr fun t _ => decide_eq_decide.mpr (same t)

theorem firstPin_agree (a : Algorithm) (alike : AlikePins pins pins') :
    Agree Pin.Alike (a.firstPin pins) (a.firstPin pins') := by
  cases alike with
  | nil => exact .error
  | cons first _ => exact .ok first.2

theorem pointsOf_agree (a : Algorithm) (alike : pin.Alike pin') : Agree SameMembers (a.pointsOf pin) (a.pointsOf pin') := by
  cases alike with
  | same => exact .refl SameMembers.refl _
  | lists same => exact .ok same

/-- Targets of values are chosen value by value. -/
theorem chosen_agree {α : Type} {xs ys : List α} (same : SameMembers xs ys) (target : α → Outcome String) :
    Agree Eq (xs.mapM target >>= fun chosen => pure (inAvailableOrder available chosen))
      (ys.mapM target >>= fun chosen => pure (inAvailableOrder available chosen)) :=
  (same.mapM target).bind fun _ _ same => .ok (inAvailableOrder_congr same)

theorem resolveModulo_agree (n : Nat) (alike : pin.Alike pin') :
    Agree Eq (resolveModulo logicName available n pin) (resolveModulo logicName available n pin') := by
  cases alike with
  | same => exact .refl (fun _ => rfl) _
  | lists same => exact chosen_agree same _

theorem resolveRanges_agree (entries : List RangeEntry) (alike : pin.Alike pin') :
    Agree Eq (resolveRanges logicName available entries pin) (resolveRanges logicName available entries pin') := by
  cases alike with
  | same => exact .refl (fun _ => rfl) _
  | lists same => exact chosen_agree same _

/-- Alike pins have the same combinations of values. -/
theorem combinations_agree (a : Algorithm) (alike : AlikePins pins pins') :
    Agree SameMembers (a.combinations pins) (a.combinations pins') := by
  -- the combinations of the columns read so far have the same members
  have folded : ∀ keys keys' : List (Named Value), SameMembers keys keys' → Agree SameMembers
      (pins.foldlM (fun keys x => do
        let points ← a.pointsOf x.2
        return keys.flatMap fun key => points.map fun v => Named.insert x.1 v key) keys)
      (pins'.foldlM (fun keys x => do
        let points ← a.pointsOf x.2
        return keys.flatMap fun key => points.map fun v => Named.insert x.1 v key) keys') := by
    induction alike with
    | nil => exact fun _ _ start => .ok start
    | @cons x y _ _ first _ ih =>
      intro keys keys' start
      obtain ⟨column, pin⟩ := x
      obtain ⟨column', pin'⟩ := y
      obtain ⟨rfl, alike⟩ := first
      refine Agree.bind ?_ ih
      refine (a.pointsOf_agree alike).bind fun points points' same => .ok ?_
      exact start.flatMap fun key => same.map fun v => Named.insert column v key
  exact folded [[]] [[]] (.refl _)

theorem resolve_agree (a : Algorithm) (alike : AlikePins pins pins') :
    Agree Eq (a.resolve logicName available pins) (a.resolve logicName available pins') := by
  cases a with
  | modulo shardCount =>
    simp only [resolve]
    split
    · exact .error
    · exact (firstPin_agree _ alike).bind fun _ _ first => resolveModulo_agree _ first
  | ranges entries => exact (firstPin_agree _ alike).bind fun _ _ first => resolveRanges_agree entries first
  | lookup entries =>
    refine (firstPin_agree _ alike).bind fun _ _ first => ?_
    exact (pointsOf_agree _ first).bind fun _ _ same => chosen_agree same _
  | expression name evaluate => exact (combinations_agree _ alike).bind fun _ _ same => chosen_agree same _

end Algorithm

/-- Every algorithm chooses among the available targets and keeps their order, and of a list it sees the set of the values: one in
another order or with repetitions has the same targets, or both are refused. -/
theorem resolve_of_alike (a : Algorithm) (logicName : String) (available : List String) :
    (∀ pins chosen, a.resolve logicName available pins = .ok chosen → chosen.Sublist available) ∧
    ∀ pins pins', AlikePins pins pins' →
      (a.resolve logicName available pins).toOption = (a.resolve logicName available pins').toOption :=
  ⟨fun _ _ run => Algorithm.resolve_sublist run, fun _ _ alike => (a.resolve_agree alike).toOption_eq⟩

/-- Pairs of nodes by whether the first one is a root. -/
def closureTables : Algorithm :=
  .expression "closure" fun key => .ok (if key.get? "ancestor" = some (.integer 1) then "closure_1" else "closure_0")

/-- Two columns read together, of which one is pinned to a list that is turned round and has a value twice. -/
theorem resolve_of_alike_closure :
    AlikePins [("ancestor", .list [.integer 1, .integer 2]), ("descendant", .single (.integer 5))]
      [("ancestor", .list [.integer 2, .integer 1, .integer 2]), ("descendant", .single (.integer 5))] ∧
    ["closure_0", "closure_1"].Sublist ["closure_0", "closure_1", "closure_2"] ∧
    closureTables.resolve "closure" ["closure_0", "closure_1", "closure_2"]
        [("ancestor", .list [.integer 2, .integer 1, .integer 2]), ("descendant", .single (.integer 5))] =
      .ok ["closure_0", "closure_1"] ∧
    (closureTables.resolve "closure" ["closure_0", "closure_1", "closure_2"]
        [("ancestor", .list [.integer 1, .integer 2]), ("descendant", .single (.integer 5))]).toOption =
      (closureTables.resolve "closure" ["closure_0", "closure_1", "closure_2"]
        [("ancestor", .list [.integer 2, .integer 1, .integer 2]), ("descendant", .single (.integer 5))]).toOption := by
  have alike : AlikePins [("ancestor", .list [.integer 1, .integer 2]), ("descendant", .single (.integer 5))]
      [("ancestor", .list [.integer 2, .integer 1, .integer 2]), ("descendant", .single (.integer 5))] := by
    refine .cons ⟨rfl, .lists fun v => ?_⟩ (.cons ⟨rfl, .same _⟩ .nil)
    simp only [List.mem_cons, List.not_mem_nil, or_false]
    tauto
  have run : closureTables.resolve "closure" ["closure_0", "closure_1", "closure_2"]
      [("ancestor", .list [.integer 2, .integer 1, .integer 2]), ("descendant", .single (.integer 5))] =
      .ok ["closure_0", "closure_1"] := by cbv
  obtain ⟨sublist, same⟩ := resolve_of_alike closureTables "closure" ["closure_0", "closure_1", "closure_2"]
  exact ⟨alike, sublist _ _ run, run, same _ _ alike⟩

end Routing

end SqlSharding
