import SqlSharding.Proofs.WholeNumbers
import SqlSharding.Routing.KeySource

/-!
# Timed keys

The state of a worker rises with every key that it makes, whatever the clock tells: to a later millisecond, or to a later number of
the same one (`Before`). A key holds the millisecond, the worker and the number side by side, as long as the milliseconds leave the
sign of the key free. So the keys of a worker are numbers that increase, and no two workers make the same key (`keys_of_clocks`).
-/

namespace SqlSharding.Routing.KeySequence

/-- The first millisecond that does not fit the 41 bits of a key. -/
def msBound : Nat := 2199023255552

/-- A worker whose own number and number within the millisecond fit their parts of a key. -/
structure Fits (s : KeySequence) : Prop where
  worker : s.worker < workers
  number : s.number < numbersPerMs

/-- A state of a worker and a later one of the same worker. -/
structure Before (s t : KeySequence) : Prop where
  worker : s.worker = t.worker
  rises : s.lastMs < t.lastMs ∨ s.lastMs = t.lastMs ∧ s.number < t.number

variable {s t : KeySequence}

theorem fits_ofWorker (worker : Nat) : (ofWorker worker).Fits :=
  ⟨Nat.mod_lt _ (by decide), Nat.zero_lt_succ _⟩

/-! ## Steps -/

theorem Fits.advance (fits : s.Fits) (clockMs : Nat) : (s.advance clockMs).Fits := by
  rw [KeySequence.advance]
  dsimp only
  split
  · exact ⟨fits.worker, Nat.mod_lt _ (by decide)⟩
  · exact ⟨fits.worker, Nat.zero_lt_succ _⟩

/-- A clock that stands still or steps back leaves the millisecond and raises the number, and a full millisecond is left for the next
one. -/
theorem before_advance (fits : s.Fits) (clockMs : Nat) : s.Before (s.advance clockMs) := by
  have bound : s.number < 4096 := fits.number
  rw [advance]
  dsimp only
  split
  · next stalled =>
    refine ⟨rfl, ?_⟩
    by_cases full : (s.number + 1) % numbersPerMs = 0
    · left
      rw [if_pos full, stalled]
      exact Nat.lt_succ_self _
    · right
      rw [if_neg full]
      rw [numbersPerMs] at full
      refine ⟨stalled.symm, ?_⟩
      dsimp only [numbersPerMs]
      omega
  · next moved => exact ⟨rfl, .inl (Nat.lt_of_le_of_ne (Nat.le_max_right _ _) (Ne.symm moved))⟩

theorem Before.trans {u : KeySequence} (first : s.Before t) (second : t.Before u) : s.Before u := by
  obtain ⟨same, rises⟩ := first
  obtain ⟨same', rises'⟩ := second
  exact ⟨same.trans same', by omega⟩

/-! ## Runs -/

theorem fits_of_mem_states (fits : s.Fits) {clocks : List Nat} (member : t ∈ s.states clocks) : t.Fits := by
  induction clocks generalizing s with
  | nil => cases member
  | cons clockMs later ih =>
    rcases List.mem_cons.mp member with same | member
    · exact same ▸ fits.advance clockMs
    · exact ih (fits.advance clockMs) member

theorem before_of_mem_states (fits : s.Fits) {clocks : List Nat} (member : t ∈ s.states clocks) : s.Before t := by
  induction clocks generalizing s with
  | nil => cases member
  | cons clockMs later ih =>
    rcases List.mem_cons.mp member with same | member
    · exact same ▸ before_advance fits clockMs
    · exact (before_advance fits clockMs).trans (ih (fits.advance clockMs) member)

theorem pairwise_states (fits : s.Fits) (clocks : List Nat) : (s.states clocks).Pairwise Before := by
  induction clocks generalizing s with
  | nil => exact .nil
  | cons clockMs later ih =>
    have fits' := fits.advance clockMs
    exact .cons (fun t member => before_of_mem_states fits' member) (ih fits')

/-! ## Keys -/

/-- The parts of a key stand side by side. -/
theorem raw_eq (inTime : s.lastMs < msBound) :
    s.raw = (s.lastMs * workers + s.worker) * numbersPerMs + s.number := by
  have small : s.lastMs < 2199023255552 := inTime
  rw [raw, workers, numbersPerMs, nat64Bound]
  omega

theorem Fits.raw_lt (fits : s.Fits) (inTime : s.lastMs < msBound) : s.raw < int64Bound := by
  have small : s.lastMs < 2199023255552 := inTime
  obtain ⟨worker, number⟩ := fits
  rw [raw_eq inTime]
  rw [workers, numbersPerMs, int64Bound] at *
  omega

theorem Before.raw_lt (before : s.Before t) (fits : s.Fits) (inTime : t.lastMs < msBound) : s.raw < t.raw := by
  obtain ⟨same, rises⟩ := before
  obtain ⟨worker, number⟩ := fits
  rw [raw_eq inTime, raw_eq (by omega), same]
  rw [workers, numbersPerMs] at *
  omega

/-- A key tells its worker. -/
theorem Fits.worker_eq (fits : s.Fits) (inTime : s.lastMs < msBound) : s.worker = s.raw / numbersPerMs % workers := by
  obtain ⟨worker, number⟩ := fits
  rw [raw_eq inTime]
  rw [workers, numbersPerMs] at *
  omega

/-- The number of the key that a worker has made last. -/
def keyNumber (s : KeySequence) : Int64 := clampInt64 s.raw

theorem toInt_keyNumber (fits : s.Fits) (inTime : s.lastMs < msBound) : s.keyNumber.toInt = s.raw := by
  have small := fits.raw_lt inTime
  rw [keyNumber, toInt_clampInt64]
  omega

/-- The keys of different workers differ. -/
theorem keyNumber_ne (fits : s.Fits) (fits' : t.Fits) (inTime : s.lastMs < msBound) (inTime' : t.lastMs < msBound)
    (different : s.worker ≠ t.worker) : s.keyNumber ≠ t.keyNumber := by
  intro same
  have sameInt := congrArg Int64.toInt same
  rw [toInt_keyNumber fits inTime, toInt_keyNumber fits' inTime'] at sameInt
  have sameRaw : s.raw = t.raw := Int.ofNat_inj.mp sameInt
  rw [fits.worker_eq inTime, fits'.worker_eq inTime', sameRaw] at different
  exact different rfl

/-- As long as the milliseconds of a worker leave the sign of its keys free, its keys are numbers without a sign that increase from
key to key. No other worker makes one of them in such a time. -/
theorem keys_of_clocks (worker : Nat) (clocks : List Nat)
    (inTime : ∀ s ∈ (ofWorker worker).states clocks, s.lastMs < msBound) :
    (∃ numbers : List Int64, ((ofWorker worker).states clocks).map key = numbers.map .integer ∧ (∀ i ∈ numbers, 0 ≤ i) ∧
      numbers.Pairwise (· < ·)) ∧
    ∀ other clocks', other % workers ≠ worker % workers → (∀ s ∈ (ofWorker other).states clocks', s.lastMs < msBound) →
      ∀ k ∈ ((ofWorker worker).states clocks).map key, k ∉ ((ofWorker other).states clocks').map key := by
  have fits {w : Nat} {clocks : List Nat} {s : KeySequence} (member : s ∈ (ofWorker w).states clocks) : s.Fits :=
    fits_of_mem_states (fits_ofWorker w) member
  refine ⟨⟨((ofWorker worker).states clocks).map keyNumber, by rw [List.map_map]; rfl, ?_, ?_⟩, ?_⟩
  · intro i member
    obtain ⟨s, isState, rfl⟩ := List.mem_map.mp member
    rw [Int64.le_iff_toInt_le, toInt_keyNumber (fits isState) (inTime s isState)]
    exact Int.natCast_nonneg _
  · refine List.pairwise_map.mpr ((pairwise_states (fits_ofWorker worker) clocks).imp_of_mem ?_)
    intro s t isState isState' before
    rw [Int64.lt_iff_toInt_lt, toInt_keyNumber (fits isState) (inTime s isState),
      toInt_keyNumber (fits isState') (inTime t isState')]
    exact Int.ofNat_lt.mpr (before.raw_lt (fits isState) (inTime t isState'))
  · intro other clocks' different inTime' k made made'
    obtain ⟨s, isState, rfl⟩ := List.mem_map.mp made
    obtain ⟨t, isState', same⟩ := List.mem_map.mp made'
    have ofOther : other % workers = t.worker := (before_of_mem_states (fits_ofWorker other) isState').worker
    have ofThis : worker % workers = s.worker := (before_of_mem_states (fits_ofWorker worker) isState).worker
    exact keyNumber_ne (fits isState') (fits isState) (inTime' t isState') (inTime s isState) (ofOther ▸ ofThis ▸ different)
      (Value.integer.inj same)

/-- A clock that is before the epoch, stands still, goes on and steps back, with two workers on it. -/
theorem keys_of_clocks_stepsBack :
    (∀ s ∈ (ofWorker 3).states [0, 0, epochMs + 2, epochMs + 1, epochMs + 2, epochMs + 3], s.lastMs < msBound) ∧
      (∀ s ∈ (ofWorker 1028).states [0, epochMs + 2], s.lastMs < msBound) ∧
      Value.integer 8400896 ∈ ((ofWorker 3).states [0, 0, epochMs + 2, epochMs + 1, epochMs + 2, epochMs + 3]).map key ∧
      Value.integer 8400896 ∉ ((ofWorker 1028).states [0, epochMs + 2]).map key := by
  have inTime : ∀ s ∈ (ofWorker 3).states [0, 0, epochMs + 2, epochMs + 1, epochMs + 2, epochMs + 3], s.lastMs < msBound := by
    decide
  have inTime' : ∀ s ∈ (ofWorker 1028).states [0, epochMs + 2], s.lastMs < msBound := by decide
  have made : Value.integer 8400896 ∈
      ((ofWorker 3).states [0, 0, epochMs + 2, epochMs + 1, epochMs + 2, epochMs + 3]).map key := by decide
  exact ⟨inTime, inTime', made,
    (keys_of_clocks 3 _ inTime).2 1028 _ (by decide) inTime' _ made⟩

end SqlSharding.Routing.KeySequence
