import SqlSharding.Proofs.Assignments
import SqlSharding.Proofs.Rules

/-!
# Targets numbered by remainders

Targets that bear one name and the numbers from zero on are chosen by the remainders of keys. Whatever values a pin admits, the
targets are those whose numbers are remainders of its keys (`resolve_numbered`). A table rule without a database strategy looks
the remainder of a key up in each data source by itself: every data source gives a table (`ReadsRemainder.exists_route`), or one
that has none refuses the key for all of them (`ReadsRemainder.route_eq_error`).
-/

namespace SqlSharding.Routing

/-! ## Numbers at the end of names -/

/-- The name of a numbered target. -/
def numberedName (name : String) (i : Nat) : String := s!"{name}_{i}"

theorem toList_numberedName (name : String) (i : Nat) :
    (numberedName name i).toList = name.toList ++ '_' :: Nat.toDigits 10 i := by
  simp [numberedName, toString, Nat.toList_repr]

theorem toDigits_injective {i j : Nat} (same : Nat.toDigits 10 i = Nat.toDigits 10 j) : i = j := by
  rw [← Nat.ofDigitChars_ten_toDigits (n := i), same, Nat.ofDigitChars_ten_toDigits]

/-- A number after an underscore is read off the end of a name in one way: no digit is an underscore. -/
theorem eq_of_suffix {i r : Nat} {cs : List Char} (number : '_' :: Nat.toDigits 10 i <:+ cs)
    (number' : '_' :: Nat.toDigits 10 r <:+ cs) : i = r := by
  have notInside {m n : Nat} (suffix : '_' :: Nat.toDigits 10 m <:+ '_' :: Nat.toDigits 10 n) : m = n := by
    rcases List.suffix_cons_iff.mp suffix with same | inside
    · exact toDigits_injective (List.cons.inj same).2
    · have digit := Nat.isDigit_of_mem_toDigits (by decide) (by decide) (inside.subset List.mem_cons_self)
      cases digit
  rcases List.suffix_or_suffix_of_suffix number number' with suffix | suffix
  · exact notInside suffix
  · exact (notInside suffix).symm

theorem number_suffix (name : String) (i : Nat) : '_' :: Nat.toDigits 10 i <:+ (numberedName name i).toList := by
  rw [toList_numberedName]
  exact List.suffix_append _ _

/-- Targets that bear one name and the numbers below `n`, in any order. -/
def Numbered (name : String) (n : Nat) (available : List String) : Prop :=
  available.Perm ((List.range n).map (numberedName name))

namespace Numbered

variable {name : String} {n : Nat} {available : List String}

theorem mem_iff (numbered : Numbered name n available) {t : String} : t ∈ available ↔ ∃ i < n, numberedName name i = t := by
  rw [List.Perm.mem_iff numbered, List.mem_map]
  simp only [List.mem_range]

theorem length_eq (numbered : Numbered name n available) : available.length = n := by
  rw [List.Perm.length_eq numbered, List.length_map, List.length_range]

/-- A remainder by the number of the targets is the number of one of them, and that one is found. -/
theorem remainderTarget_eq (numbered : Numbered name n available) (positive : 1 ≤ n) (logicName : String) (k : Int) :
    Algorithm.remainderTarget logicName available (k % n) = .ok (numberedName name (k % n).toNat) := by
  obtain ⟨r, isRemainder⟩ := Int.eq_ofNat_of_zero_le (Int.emod_nonneg k (by omega : (n : Int) ≠ 0))
  have below : r < n := by
    have := Int.emod_lt_of_pos k (by omega : (0 : Int) < n)
    omega
  have number : (toString "_" ++ toString (k % n)).toList = '_' :: Nat.toDigits 10 r := by
    rw [isRemainder]
    exact toList_numberedName "" r
  rw [Algorithm.remainderTarget, elim_eq_ok_iff, number, isRemainder, Int.toNat_natCast]
  cases found : available.find? fun t => ('_' :: Nat.toDigits 10 r).isSuffixOf t.toList with
  | none =>
    have missing := List.find?_eq_none.mp found _ (numbered.mem_iff.mpr ⟨r, below, rfl⟩)
    exact absurd (List.isSuffixOf_iff_suffix.mpr (number_suffix name r)) missing
  | some t =>
    obtain ⟨i, -, rfl⟩ := numbered.mem_iff.mp (List.mem_of_find?_eq_some found)
    have ends : ('_' :: Nat.toDigits 10 r).isSuffixOf (numberedName name i).toList = true := by simpa using List.find?_some found
    rw [eq_of_suffix (number_suffix name i) (List.isSuffixOf_iff_suffix.mp ends)]

end Numbered

/-! ## Keys of a pin -/

/-- The keys that a pin admits, if its values stand for integers. -/
def Pin.keys? : Pin → Option (List Int)
  | .single v => v.toShardingInteger?.map fun i => [i.toInt]
  | .list vs => vs.mapM fun v => v.toShardingInteger?.map (·.toInt)
  | .range lower upper => do
    let lo ← lower.toShardingInteger?
    let hi ← upper.toShardingInteger?
    return integersBetween lo.toInt hi.toInt

theorem mem_integersBetween {lo hi k : Int} : k ∈ integersBetween lo hi ↔ lo ≤ k ∧ k ≤ hi := by
  simp only [integersBetween, List.mem_map, List.mem_range]
  constructor
  · rintro ⟨i, below, rfl⟩
    omega
  · rintro ⟨above, below⟩
    exact ⟨(k - lo).toNat, by omega, by omega⟩

/-- Any `n` integers in a row have every remainder by `n`. -/
theorem exists_between_emod {lo hi : Int} {n r : Nat} (below : r < n) (wide : (n : Int) - 1 ≤ hi - lo) :
    ∃ k ∈ integersBetween lo hi, k % n = r := by
  have positive : (0 : Int) < n := by omega
  have lower := Int.emod_nonneg (r - lo) (Int.ne_of_gt positive)
  have upper := Int.emod_lt_of_pos (r - lo) positive
  refine ⟨lo + (r - lo) % n, mem_integersBetween.mpr ⟨by omega, by omega⟩, ?_⟩
  rw [Int.add_emod_emod, add_sub_cancel, Int.emod_eq_of_lt (Int.natCast_nonneg r) (by omega)]

/-! ## Targets of keys -/

namespace Algorithm

variable {logicName : String} {available : List String} {n : Nat} {target : Int → String}

section Targets

variable (found : ∀ k : Int, remainderTarget logicName available (k % n) = .ok (target k))

include found

/-- Integers in a row have the targets of the single integers. -/
theorem remainderTargets_eq (first : Int) (count : Nat) : remainderTargets logicName available n first count =
    .ok ((List.range count).map fun (i : Nat) => target (first + i)) := by
  induction count generalizing first with
  | zero => rfl
  | succ count ih =>
    have next (i : Nat) : first + 1 + i = first + (i + 1 : Nat) := by omega
    rw [remainderTargets, found, ih, List.range_succ_eq_map, List.map_cons, List.map_map]
    simp only [next]
    simp [bind, Except.bind, pure, Except.pure, Function.comp_def]

/-- Values have the targets of the integers that they stand for. -/
theorem pointTargets_eq {vs : List Value} {keys : List Int}
    (integers : (vs.mapM fun v => v.toShardingInteger?.map (·.toInt)) = some keys) :
    (vs.mapM fun v => do remainderTarget logicName available ((← integerOf logicName v).toInt % n)) =
      .ok (keys.map target) := by
  induction vs generalizing keys with
  | nil =>
    cases integers
    rfl
  | cons v vs ih =>
    rw [List.mapM_cons] at integers
    obtain ⟨k, ofFirst, integers⟩ := Option.bind_eq_some_iff.mp integers
    obtain ⟨ks, ofOthers, integers⟩ := Option.bind_eq_some_iff.mp integers
    cases integers
    obtain ⟨i, isInteger, rfl⟩ := Option.map_eq_some_iff.mp ofFirst
    have first : integerOf logicName v = .ok i := elim_eq_ok_iff.mpr isInteger
    rw [List.mapM_cons, first, ih ofOthers]
    exact bind_eq_ok_iff.mpr ⟨_, found _, rfl⟩

/-- The targets of a pin are those of its keys, where every target is that of some key among any `n` in a row. -/
theorem resolveModulo_eq {pin : Pin} {keys : List Int} (converts : pin.keys? = some keys)
    (all : ∀ t ∈ available, ∀ lo hi : Int, (n : Int) - 1 ≤ hi - lo → ∃ k ∈ integersBetween lo hi, t = target k) :
    resolveModulo logicName available n pin = .ok (available.filter fun t => ∃ k ∈ keys, t = target k) := by
  have chosen (ks : List Int) : inAvailableOrder available (ks.map target) = available.filter fun t => ∃ k ∈ ks, t = target k := by
    refine List.filter_congr fun t _ => decide_eq_decide.mpr ?_
    simp only [List.mem_map, eq_comm]
  cases pin with
  | single v =>
    have points : ([v].mapM fun v => v.toShardingInteger?.map (·.toInt)) = some keys := by
      obtain ⟨i, isInteger, rfl⟩ := Option.map_eq_some_iff.mp converts
      simp [isInteger]
    exact bind_eq_ok_iff.mpr ⟨_, pointTargets_eq found points, congrArg Except.ok (chosen keys)⟩
  | list vs => exact bind_eq_ok_iff.mpr ⟨_, pointTargets_eq found converts, congrArg Except.ok (chosen keys)⟩
  | range lower upper =>
    obtain ⟨lo, isLower, converts⟩ := Option.bind_eq_some_iff.mp converts
    obtain ⟨hi, isUpper, converts⟩ := Option.bind_eq_some_iff.mp converts
    cases converts
    refine bind_eq_ok_iff.mpr ⟨lo, elim_eq_ok_iff.mpr isLower, bind_eq_ok_iff.mpr ⟨hi, elim_eq_ok_iff.mpr isUpper, ?_⟩⟩
    split
    · next inverted =>
      -- No integer lies between the bounds.
      rw [Int64.lt_iff_toInt_lt] at inverted
      have none : integersBetween lo.toInt hi.toInt = [] :=
        List.eq_nil_iff_forall_not_mem.mpr fun k member => by
          have := mem_integersBetween.mp member
          omega
      simp [none, pure, Except.pure]
    · next forward =>
      rw [Int64.lt_iff_toInt_lt] at forward
      split
      · next wide =>
        refine congrArg Except.ok (List.filter_eq_self.mpr fun t member => ?_).symm
        exact decide_eq_true (all t member _ _ wide)
      · have row : integersBetween lo.toInt hi.toInt =
            (List.range ((hi.toInt - lo.toInt).toNat + 1)).map fun (i : Nat) => lo.toInt + i := by
          rw [integersBetween]
          congr 2
          omega
        refine bind_eq_ok_iff.mpr ⟨_, remainderTargets_eq found _ _, ?_⟩
        rw [← chosen, row, List.map_map]
        rfl

end Targets

end Algorithm

/-- Among numbered targets the modulo algorithm chooses those whose numbers are remainders of keys that the pin admits, in
the order in which the targets are available. -/
theorem resolve_numbered {name : String} {n : Nat} (positive : 1 ≤ n) {available : List String}
    (numbered : Numbered name n available) {shardCount : Option Nat} (counted : shardCount = none ∨ shardCount = some n)
    {pin : Pin} {keys : List Int} (converts : pin.keys? = some keys) (logicName column : String) (others : Pins) :
    (Algorithm.modulo shardCount).resolve logicName available ((column, pin) :: others) =
      .ok (available.filter fun t => ∃ k ∈ keys, t = numberedName name (k % n).toNat) := by
  have count : shardCount.getD available.length = n := by
    rcases counted with rfl | rfl
    · exact numbered.length_eq
    · rfl
  have resolved := Algorithm.resolveModulo_eq (numbered.remainderTarget_eq positive logicName) converts
    fun t member lo hi wide => by
      obtain ⟨r, below, rfl⟩ := numbered.mem_iff.mp member
      obtain ⟨k, between, isRemainder⟩ := exists_between_emod below wide
      exact ⟨k, between, by rw [isRemainder, Int.toNat_natCast]⟩
  rw [Algorithm.resolve, count]
  simp only
  rw [if_neg (by omega)]
  exact bind_eq_ok_iff.mpr ⟨pin, rfl, resolved⟩

/-- Keys from end to end of their range, of which two have the same remainder, under a name that ends in a number itself. -/
theorem resolve_numbered_extremes : Numbered "t_1" 3 ["t_1_2", "t_1_0", "t_1_1"] ∧
    (Pin.list [.integer Int64.minValue, .integer (-1), .text "9223372036854775807"]).keys? =
      some [-9223372036854775808, -1, 9223372036854775807] ∧
    (Algorithm.modulo none).resolve "t" ["t_1_2", "t_1_0", "t_1_1"]
      [("id", .list [.integer Int64.minValue, .integer (-1), .text "9223372036854775807"])] = .ok ["t_1_2", "t_1_1"] := by
  have numbered : Numbered "t_1" 3 ["t_1_2", "t_1_0", "t_1_1"] := by
    rw [Numbered]
    decide
  have converts : (Pin.list [.integer Int64.minValue, .integer (-1), .text "9223372036854775807"]).keys? =
      some [-9223372036854775808, -1, 9223372036854775807] := by cbv
  refine ⟨numbered, converts, ?_⟩
  exact (resolve_numbered (by decide) numbered (.inl rfl) converts "t" "id" []).trans (congrArg Except.ok (by decide))

/-! ## Keys over data sources -/

/-- A table that bears the number of a remainder. -/
def bearsNumber (remainder : Int) (table : String) : Bool := s!"_{remainder}".toList.isSuffixOf table.toList

/-- A single value has one target, with all its copies. -/
theorem Algorithm.resolveModulo_single {logicName : String} {v : Value} {k : Int64} (integer : v.toShardingInteger? = some k)
    (available : List String) (n : Nat) : resolveModulo logicName available n (.single v) =
      ((available.find? (bearsNumber (k.toInt % n))).map fun table => inAvailableOrder available [table]).elim
        (.error (.noMatchingShard logicName s!"remainder {k.toInt % n}")) .ok := by
  have key : integerOf logicName v = .ok k := elim_eq_ok_iff.mpr integer
  have only (f : Value → Outcome String) : [v].mapM f = (f v).map ([·]) := by
    rw [List.mapM_cons, List.mapM_nil]
    cases f v <;> rfl
  have target : remainderTarget logicName available (k.toInt % n) =
      (available.find? (bearsNumber (k.toInt % n))).elim
        (.error (.noMatchingShard logicName s!"remainder {k.toInt % n}")) .ok := rfl
  calc resolveModulo logicName available n (.single v)
      = ((integerOf logicName v >>= fun i => remainderTarget logicName available (i.toInt % n)).map ([·])) >>=
          fun chosen => .ok (inAvailableOrder available chosen) := congrArg (· >>= _) (only _)
    _ = ((remainderTarget logicName available (k.toInt % n)).map ([·])) >>=
          fun chosen => .ok (inAvailableOrder available chosen) := by rw [key]; rfl
    _ = _ := by
      rw [target]
      cases available.find? (bearsNumber (k.toInt % n)) <;> rfl

namespace TableRule

variable {t : TableRule} {pins : Pins} {n : Nat} {k : Int64}

/-- Without a database strategy, the tables of each data source are narrowed by themselves. -/
theorem route_allSources (allSources : t.databaseStrategy = none) : t.route pins =
    (t.dataSources.mapM fun source => (t.narrow t.tableStrategy (t.tablesIn source) pins).map (·.map (DataNode.mk source))).map
      (·.flatten) := by
  have step (source : String) : (do
      let tables ← t.narrow t.tableStrategy (t.tablesIn source) pins
      return tables.map fun table => DataNode.mk source table) =
      (t.narrow t.tableStrategy (t.tablesIn source) pins).map (·.map (DataNode.mk source)) := by
    cases t.narrow t.tableStrategy (t.tablesIn source) pins <;> rfl
  rw [route, allSources]
  simp only [step]
  show (t.dataSources.mapM fun source =>
    (t.narrow t.tableStrategy (t.tablesIn source) pins).map (·.map (DataNode.mk source))) >>= (fun nodes => pure nodes.flatten) = _
  cases t.dataSources.mapM fun source =>
    (t.narrow t.tableStrategy (t.tablesIn source) pins).map (·.map (DataNode.mk source)) <;> rfl

/-- All data sources are read, and in each one the table is chosen by the remainder of a key by `n`. -/
structure ReadsRemainder (t : TableRule) (pins : Pins) (n : Nat) (k : Int64) : Prop where
  allSources : t.databaseStrategy = none
  positive : n ≠ 0
  strategy : ∃ s, t.tableStrategy = some s ∧ s.algorithm = .modulo (some n) ∧ s.isPinned pins = true ∧
    ∃ column v others, s.ownPins pins = (column, .single v) :: others ∧ v.toShardingInteger? = some k

namespace ReadsRemainder

variable (reads : t.ReadsRemainder pins n k)

include reads

/-- The tables of one data source: the first one that bears the number of the remainder. -/
theorem narrow_eq (available : List String) : t.narrow t.tableStrategy available pins =
    ((available.find? (bearsNumber (k.toInt % n))).map fun table => Algorithm.inAvailableOrder available [table]).elim
      (.error (.noMatchingShard t.logicTable s!"remainder {k.toInt % n}")) .ok := by
  obtain ⟨s, isStrategy, isModulo, pinned, column, v, others, own, integer⟩ := reads.strategy
  rw [isStrategy, narrow, Option.elim_some, Strategy.shard, if_pos pinned, isModulo, own, Algorithm.resolve]
  simp only [Option.getD_some]
  rw [if_neg reads.positive]
  exact Algorithm.resolveModulo_single integer available n

/-- A key whose remainder is borne by a table in every data source selects the first such table of each. -/
theorem exists_route (everywhere : ∀ source ∈ t.dataSources, ∃ table ∈ t.tablesIn source, bearsNumber (k.toInt % n) table = true) :
    ∃ nodes, t.route pins = .ok nodes ∧ ∀ node, node ∈ nodes ↔
      node ∈ t.dataNodes ∧ (t.tablesIn node.dataSource).find? (bearsNumber (k.toInt % n)) = some node.table := by
  have narrowed : ∀ source ∈ t.dataSources, ∃ table ∈ t.tablesIn source,
      (t.tablesIn source).find? (bearsNumber (k.toInt % n)) = some table ∧
        t.narrow t.tableStrategy (t.tablesIn source) pins = .ok (Algorithm.inAvailableOrder (t.tablesIn source) [table]) := by
    intro source isSource
    obtain ⟨table, found⟩ := Option.isSome_iff_exists.mp (List.find?_isSome.mpr (everywhere source isSource))
    exact ⟨table, List.mem_of_find?_eq_some found, found, by rw [reads.narrow_eq, found]; rfl⟩
  obtain ⟨nodes, run⟩ : ∃ nodes, t.route pins = .ok nodes := by
    rw [route_allSources reads.allSources]
    rcases mapM_cases (fun source => (t.narrow t.tableStrategy (t.tablesIn source) pins).map (·.map (DataNode.mk source)))
        t.dataSources with ⟨groups, run⟩ | ⟨source, isSource, e, failed, -⟩
    · exact ⟨groups.flatten, by rw [run]; rfl⟩
    · obtain ⟨_, -, -, some⟩ := narrowed source isSource
      rw [some] at failed
      cases failed
  refine ⟨nodes, run, fun node => ?_⟩
  rw [TableRule.mem_route run, reads.allSources]
  constructor
  · rintro ⟨sources, tables, all, isSource, some, inTables⟩
    cases all
    obtain ⟨table, -, found, only⟩ := narrowed node.dataSource isSource
    rw [only] at some
    cases some
    obtain ⟨inSource, chosen⟩ := Algorithm.mem_inAvailableOrder.mp inTables
    exact ⟨mem_tablesIn.mp inSource, List.mem_singleton.mp chosen ▸ found⟩
  · rintro ⟨isNode, found⟩
    have isSource := mem_dataSources.mpr ⟨node.table, isNode⟩
    obtain ⟨table, inSource, found', only⟩ := narrowed node.dataSource isSource
    rw [found] at found'
    cases found'
    exact ⟨_, _, rfl, isSource, only, Algorithm.mem_inAvailableOrder.mpr ⟨inSource, List.mem_singleton_self _⟩⟩

/-- One data source without a table for the remainder is enough to refuse the key. -/
theorem route_eq_error (missing : ∃ source ∈ t.dataSources, ∀ table ∈ t.tablesIn source, bearsNumber (k.toInt % n) table = false) :
    t.route pins = .error (.noMatchingShard t.logicTable s!"remainder {k.toInt % n}") := by
  rw [route_allSources reads.allSources]
  rcases mapM_cases (fun source => (t.narrow t.tableStrategy (t.tablesIn source) pins).map (·.map (DataNode.mk source)))
      t.dataSources with ⟨groups, run⟩ | ⟨source, -, e, failed, run⟩
  · obtain ⟨source, isSource, none⟩ := missing
    obtain ⟨_, -, some⟩ := mem_of_mapM_eq_ok run isSource
    have notFound : (t.tablesIn source).find? (bearsNumber (k.toInt % n)) = .none :=
      List.find?_eq_none.mpr fun table member => by simp [none table member]
    rw [reads.narrow_eq, notFound] at some
    cases some
  · rw [run]
    rw [reads.narrow_eq] at failed
    cases found : (t.tablesIn source).find? (bearsNumber (k.toInt % n)) <;> rw [found] at failed <;> cases failed
    rfl

end ReadsRemainder

end TableRule

/-- Orders in four tables, of which the numbers go on from one data source to the next one. -/
def ordersAcrossSources : TableRule where
  logicTable := "orders"
  dataNodes := [⟨"ds_0", "orders_0"⟩, ⟨"ds_0", "orders_1"⟩, ⟨"ds_1", "orders_2"⟩, ⟨"ds_1", "orders_3"⟩]
  databaseStrategy := none
  tableStrategy := some (.of ["user_id"] (.modulo (some 4)))
  generatedKeyColumn := none

/-- A single key is refused there, although the second data source has a table for its remainder. -/
example : ordersAcrossSources.route [("user_id", .single (.integer 42))] = .error (.noMatchingShard "orders" "remainder 2") := by
  cbv

end SqlSharding.Routing
