import JobAllocation.Verification
import JobAllocation.Proofs.Binary64Multiples
import JobAllocation.Proofs.Realization
import JobAllocation.Proofs.WorkingUnits

/-!
# What an empty report says

A discrepancy is reported when a value is on the wrong side of its bound, so a report is empty
exactly if no value is. Where all values are defined, none on the wrong side means that all are on
the right one, and the completions are consistent with their input. An undefined duration is on
neither side of the tolerance: a job that starts and finishes at infinity is not reported.
-/
namespace JobAllocation

section Consistency

variable {T : Type} [Quantity T]

/-- By how much a completion took longer than its job takes on its unit. -/
def Completion.deviation (c : Completion T) (job : Job T) (unit : ExecutionUnit T) : T :=
  c.span - Quantity.ofNat job.length / unit.speed

/-- Starts after the arrival, finishes after the start and takes the right time up to a tolerance.
`within` says how a value is compared with its bound. -/
structure Completion.InOrder (within : T → T → Prop) (tolerance : T) (job : Job T)
    (unit : ExecutionUnit T) (c : Completion T) : Prop where
  arrived : within job.arrival c.start
  forward : within c.start c.finish
  timed : within (Quantity.magnitude (c.deviation job unit)) tolerance

/-- One completion for each job of the pool, each in order on one of its units. -/
structure Pool.Accounts (within : T → T → Prop) (tolerance : T) (pool : Pool T)
    (completions : List (Completion T)) : Prop where
  jobs_perm : (completions.map (·.job)).Perm (pool.jobs.map (·.id))
  in_order : ∀ c ∈ completions, ∃ job ∈ pool.jobs, ∃ unit ∈ pool.units,
    job.id = c.job ∧ unit.id = c.unit ∧ c.InOrder within tolerance job unit

/-- The first value is not above the second one, as an undefined one never is. -/
def NotAbove (x y : T) : Prop := ¬ y < x

theorem NotAbove.of_le {x y : T} (h : x ≤ y) : NotAbove x y :=
  fun hlt => Quantity.not_le_of_lt hlt h

variable {within within' : T → T → Prop} {tolerance : T} {job : Job T} {unit : ExecutionUnit T}
  {c : Completion T}

theorem Completion.InOrder.mono (h : ∀ {x y : T}, within x y → within' x y)
    (hc : c.InOrder within tolerance job unit) : c.InOrder within' tolerance job unit :=
  ⟨h hc.arrived, h hc.forward, h hc.timed⟩

variable {pool : Pool T} {completions : List (Completion T)}

theorem Pool.Accounts.imp (h : pool.Accounts within tolerance completions)
    (himp : ∀ c ∈ completions, ∀ job ∈ pool.jobs, ∀ unit ∈ pool.units, job.id = c.job →
      unit.id = c.unit → c.InOrder within tolerance job unit →
        c.InOrder within' tolerance job unit) :
    pool.Accounts within' tolerance completions := by
  refine ⟨h.jobs_perm, fun c hc => ?_⟩
  obtain ⟨job, hj, unit, hu, hjid, huid, horder⟩ := h.in_order c hc
  exact ⟨job, hj, unit, hu, hjid, huid, himp c hc job hj unit hu hjid huid horder⟩

/-- The job and the unit that a completion names are the only ones with these numbers. -/
theorem Pool.Accounts.inOrder (hv : pool.Valid) (h : pool.Accounts within tolerance completions)
    (hc : c ∈ completions) (hj : job ∈ pool.jobs) (hu : unit ∈ pool.units) (hjid : job.id = c.job)
    (huid : unit.id = c.unit) : c.InOrder within tolerance job unit := by
  obtain ⟨job', hj', unit', hu', hjid', huid', horder⟩ := h.in_order c hc
  have hjob := List.inj_on_of_nodup_map hv.jobs_distinct hj hj' (hjid.trans hjid'.symm)
  have hunit := List.inj_on_of_nodup_map hv.units_distinct hu hu' (huid.trans huid'.symm)
  rw [hjob, hunit]
  exact horder

namespace Verification

variable {jobs : List (Job T)} {units : List (ExecutionUnit T)}

theorem checkDuration_eq_nil_iff (hs : 0 < unit.speed) :
    checkDuration tolerance c job unit = [] ↔
      NotAbove (Quantity.magnitude (c.deviation job unit)) tolerance := by
  unfold checkDuration
  simp only [executionTime_eq hs]
  exact forbidden_eq_nil_iff

theorem checkCompletion_eq_nil_iff (hs : ∀ unit ∈ units, 0 < unit.speed) :
    checkCompletion jobs units tolerance c = [] ↔
      ∃ job unit, findJob? jobs c.job = some job ∧ findUnit? units c.unit = some unit ∧
        c.InOrder NotAbove tolerance job unit := by
  unfold checkCompletion
  rw [List.append_eq_nil_iff, forbidden_eq_nil_iff]
  cases findJob? jobs c.job with
  | none => simp
  | some job =>
    simp only [Option.some.injEq, exists_and_left, exists_eq_left', List.append_eq_nil_iff,
      forbidden_eq_nil_iff]
    cases hunit : findUnit? units c.unit with
    | none => simp
    | some unit =>
      simp only [Option.some.injEq, exists_eq_left',
        checkDuration_eq_nil_iff (hs unit (mem_of_findUnit? hunit).1)]
      constructor
      · rintro ⟨hforward, harrived, htimed⟩
        exact ⟨harrived, hforward, htimed⟩
      · intro h
        exact ⟨h.forward, h.arrived, h.timed⟩

theorem checkAll_eq_nil_iff (seen : List JobId) (completions : List (Completion T)) :
    checkAll jobs units tolerance seen completions = [] ↔
      (completions.map (·.job)).Nodup ∧ (∀ c ∈ completions, c.job ∉ seen) ∧
        ∀ c ∈ completions, checkCompletion jobs units tolerance c = [] := by
  induction completions generalizing seen with
  | nil => simp [checkAll]
  | cons c rest ih =>
    simp only [checkAll, List.append_eq_nil_iff, forbidden_eq_nil_iff, ih, List.map_cons,
      List.nodup_cons, List.mem_map, List.mem_cons]
    grind

omit [Quantity T] in
theorem missing_eq_nil_iff :
    missing completions jobs = [] ↔ ∀ id ∈ jobs.map (·.id), id ∈ completions.map (·.job) := by
  simp [missing, List.filter_eq_nil_iff]

theorem verify_eq_nil_iff (hv : pool.Valid) :
    verify completions pool.jobs pool.units tolerance = [] ↔
      pool.Accounts NotAbove tolerance completions := by
  unfold verify
  rw [List.append_eq_nil_iff, checkAll_eq_nil_iff, missing_eq_nil_iff]
  simp only [checkCompletion_eq_nil_iff hv.speed_pos]
  constructor
  · rintro ⟨⟨hn, -, hall⟩, hmissing⟩
    have hin : ∀ c ∈ completions, ∃ job ∈ pool.jobs, ∃ unit ∈ pool.units,
        job.id = c.job ∧ unit.id = c.unit ∧ c.InOrder NotAbove tolerance job unit := by
      intro c hc
      obtain ⟨job, unit, hjob, hunit, horder⟩ := hall c hc
      obtain ⟨hj, hjid⟩ := mem_of_findJob? hjob
      obtain ⟨hu, huid⟩ := mem_of_findUnit? hunit
      exact ⟨job, hj, unit, hu, hjid, huid, horder⟩
    refine ⟨(List.perm_ext_iff_of_nodup hn hv.jobs_distinct).mpr fun id => ⟨?_, hmissing id⟩, hin⟩
    intro hm
    obtain ⟨c, hc, rfl⟩ := List.mem_map.mp hm
    obtain ⟨job, hj, -, -, hjid, -⟩ := hin c hc
    exact hjid ▸ List.mem_map_of_mem hj
  · intro h
    refine ⟨⟨h.jobs_perm.nodup_iff.mpr hv.jobs_distinct, by simp, fun c hc => ?_⟩,
      fun id hid => h.jobs_perm.mem_iff.mpr hid⟩
    obtain ⟨job, hj, unit, hu, hjid, huid, horder⟩ := h.in_order c hc
    exact ⟨job, unit, hjid ▸ findJob?_of_mem hv.jobs_distinct hj,
      huid ▸ findUnit?_of_mem hv.units_distinct hu, horder⟩

end Verification
end Consistency

namespace Binary64

theorem le_of_notAbove {x y : Binary64} (hx : x.isUndefined = false) (hy : y.isUndefined = false)
    (h : NotAbove x y) : x ≤ y := by
  rw [NotAbove, lt_iff] at h
  exact le_iff.mpr ⟨hx, hy, Int.not_lt.mp fun hlt => h ⟨hy, hx, hlt⟩⟩

/-- A sum is undefined if a term is. -/
theorem defined_of_add {x y : Binary64} (h : (x + y).isUndefined = false) :
    x.isUndefined = false ∧ y.isUndefined = false := by
  change (x.add y).isUndefined = false at h
  cases x <;> cases y <;> simp_all [add, isUndefined]

theorem isUndefined_neg (x : Binary64) : x.neg.isUndefined = x.isUndefined := by
  cases x <;> rfl

theorem defined_of_sub {x y : Binary64} (h : (x - y).isUndefined = false) :
    x.isUndefined = false ∧ y.isUndefined = false := by
  rw [← isUndefined_neg y]
  exact defined_of_add h

/-- A finite term makes the sum defined if the other term is. -/
theorem defined_add_of_finite {x y : Binary64} (hx : x.isFinite = true)
    (hy : y.isUndefined = false) : (x + y).isUndefined = false := by
  change (x.add y).isUndefined = false
  cases x with
  | infinite => cases hx
  | undefined => cases hx
  | finite s a ha =>
    cases y with
    | undefined => cases hy
    | infinite => rfl
    | finite t b hb =>
      unfold add
      dsimp only
      split
      · rfl
      · unfold ofRatio
        split <;> rfl

theorem defined_sub_of_finite {x y : Binary64} (hx : x.isFinite = true)
    (hy : y.isUndefined = false) : (x - y).isUndefined = false :=
  defined_add_of_finite hx (by rwa [isUndefined_neg])

theorem defined_magnitude_iff (x : Binary64) :
    (Quantity.magnitude x).isUndefined = false ↔ x.isUndefined = false := by
  unfold Quantity.magnitude
  split
  · exact ⟨fun h => (defined_of_sub h).2, fun h => defined_sub_of_finite rfl h⟩
  · rfl

theorem rank_lt_limit_of_isFinite {x : Binary64} (h : x.isFinite = true) : x.rank < limit := by
  cases x with
  | finite s n fits =>
    have := fits.2
    simp only [rank]
    split <;> omega
  | infinite => cases h
  | undefined => cases h

theorem defined_of_isFinite {x : Binary64} (h : x.isFinite = true) : x.isUndefined = false := by
  cases x <;> simp_all [isFinite, isUndefined]

/-- The span between finite times is finite. -/
theorem isFinite_sub {x y : Binary64} (hx : x.isFinite = true) (hy : 0 ≤ y) (h : y ≤ x) :
    (x - y).isFinite = true := by
  have hlimit := rank_lt_limit_of_isFinite hx
  have hxpos := Quantity.le_trans hy h
  have hypos := (nonneg_iff.mp hy).2
  obtain ⟨hdefined, hrank⟩ := rank_sub hxpos hy hlimit (le_iff.mp h).2.2
  have hle : cutoff (x.rank - y.rank).toNat ≤ cutoff x.rank.toNat := cutoff_mono (by omega)
  have hself := rank_eq_cutoff hxpos
  obtain ⟨s, n, fits, heq⟩ := exists_finite
    (nonneg_iff.mpr ⟨hdefined, by omega⟩) (show (x - y).rank < limit by omega)
  rw [heq]
  rfl

end Binary64

/-- Each completion of a job of the pool on a unit of the pool deviates by a defined time. -/
def Pool.Measures (pool : Pool Binary64) (completions : List (Completion Binary64)) : Prop :=
  ∀ c ∈ completions, ∀ job ∈ pool.jobs, ∀ unit ∈ pool.units, job.id = c.job → unit.id = c.unit →
    (c.deviation job unit).isUndefined = false

namespace Completion

variable {c : Completion Binary64} {job : Job Binary64} {unit : ExecutionUnit Binary64}
  {tolerance : Binary64}

theorem InOrder.measured (h : c.InOrder (· ≤ ·) tolerance job unit) :
    (c.deviation job unit).isUndefined = false :=
  (Binary64.defined_magnitude_iff _).mp (Binary64.le_iff.mp h.timed).1

/-- Where the duration is defined, nothing on the wrong side of its bound is all on the right
one. -/
theorem InOrder.of_measured (hj : job.Valid) (ht : 0 ≤ tolerance)
    (hm : (c.deviation job unit).isUndefined = false)
    (h : c.InOrder NotAbove tolerance job unit) : c.InOrder (· ≤ ·) tolerance job unit := by
  obtain ⟨hfinish, hstart⟩ := Binary64.defined_of_sub (Binary64.defined_of_sub hm).1
  have harrival := (Binary64.nonneg_iff.mp hj.arrival_nonneg).1
  have htolerance := (Binary64.nonneg_iff.mp ht).1
  exact ⟨Binary64.le_of_notAbove harrival hstart h.arrived,
    Binary64.le_of_notAbove hstart hfinish h.forward,
    Binary64.le_of_notAbove ((Binary64.defined_magnitude_iff _).mpr hm) htolerance h.timed⟩

/-- Between finite times every duration is defined, even where the job would take forever. -/
theorem InOrder.measured_of_isFinite (hj : job.Valid) (hu : unit.Valid)
    (hstart : c.start.isFinite = true) (hfinish : c.finish.isFinite = true)
    (h : c.InOrder NotAbove tolerance job unit) :
    (c.deviation job unit).isUndefined = false := by
  have hstart' := Binary64.defined_of_isFinite hstart
  have hfinish' := Binary64.defined_of_isFinite hfinish
  have harrival := (Binary64.nonneg_iff.mp hj.arrival_nonneg).1
  have hnonneg := Quantity.le_trans hj.arrival_nonneg
    (Binary64.le_of_notAbove harrival hstart' h.arrived)
  have hspan := Binary64.isFinite_sub hfinish hnonneg
    (Binary64.le_of_notAbove hstart' hfinish' h.forward)
  have hwork := LawfulQuantity.work_nonneg job.length hu.speed_finite hu.speed_pos
  exact Binary64.defined_sub_of_finite hspan (Binary64.nonneg_iff.mp hwork).1

end Completion

namespace Pool

variable {pool : Pool Binary64} {tolerance : Binary64} {completions : List (Completion Binary64)}

theorem Accounts.measures (hv : pool.Valid) (h : pool.Accounts (· ≤ ·) tolerance completions) :
    pool.Measures completions :=
  fun _ hc _ hj _ hu hjid huid => (h.inOrder hv hc hj hu hjid huid).measured

theorem Accounts.measures_of_isFinite (hv : pool.Valid)
    (hfinite : ∀ c ∈ completions, c.start.isFinite = true ∧ c.finish.isFinite = true)
    (h : pool.Accounts NotAbove tolerance completions) : pool.Measures completions := by
  intro c hc job hj unit hu hjid huid
  exact (h.inOrder hv hc hj hu hjid huid).measured_of_isFinite (hv.jobs_valid job hj)
    (hv.units_valid unit hu) (hfinite c hc).1 (hfinite c hc).2

theorem accounts_iff_of_measures (hv : pool.Valid) (ht : 0 ≤ tolerance)
    (h : pool.Accounts NotAbove tolerance completions → pool.Measures completions) :
    pool.Accounts NotAbove tolerance completions ↔
      pool.Accounts (· ≤ ·) tolerance completions :=
  ⟨fun hn => hn.imp fun c hc job hj unit hu hjid huid horder =>
      horder.of_measured (hv.jobs_valid job hj) ht (h hn c hc job hj unit hu hjid huid),
    fun hle => hle.imp fun _ _ _ _ _ _ _ _ horder => horder.mono NotAbove.of_le⟩

end Pool

/-- The report is empty exactly for consistent completions if and only if no undefined duration
stands among completions that are not otherwise at fault. None does among completions that start
and finish at finite times. -/
theorem Verification.clean_iff_consistent_iff_measured (pool : Pool Binary64)
    (valid : pool.check = .ok ()) (tolerance : Binary64) (nonneg : 0 ≤ tolerance)
    (completions : List (Completion Binary64)) :
    ((verify completions pool.jobs pool.units tolerance = [] ↔
          pool.Accounts (· ≤ ·) tolerance completions) ↔
        (pool.Accounts NotAbove tolerance completions → pool.Measures completions)) ∧
      ((∀ c ∈ completions, c.start.isFinite = true ∧ c.finish.isFinite = true) →
        (verify completions pool.jobs pool.units tolerance = [] ↔
          pool.Accounts (· ≤ ·) tolerance completions)) := by
  have hv := Pool.valid_of_check valid
  rw [verify_eq_nil_iff hv]
  exact ⟨⟨fun h hn => (h.mp hn).measures hv, Pool.accounts_iff_of_measures hv nonneg⟩,
    fun hfinite => Pool.accounts_iff_of_measures hv nonneg
      (Pool.Accounts.measures_of_isFinite hv hfinite)⟩

/-- A job of one second. -/
def oneSecond : Pool Binary64 where
  jobs := [⟨0, "second", 100, 0, none, 100⟩]
  units := [⟨0, "only", Quantity.ofNat 100, 0⟩]

theorem oneSecond_check : oneSecond.check = .ok () :=
  oneSecond.check_eq_ok_iff.mpr (by decide +kernel)

/-- A completion of the job in its second is found to be consistent. -/
theorem Verification.clean_iff_consistent_iff_measured_oneSecond :
    oneSecond.check = .ok () ∧ (0 : Binary64) ≤ 0 ∧
      oneSecond.Accounts (· ≤ ·) 0 [⟨0, 0, 0, Quantity.ofNat 1⟩] ∧
      (oneSecond.Accounts NotAbove 0 [⟨0, 0, 0, Quantity.ofNat 1⟩] →
        oneSecond.Measures [⟨0, 0, 0, Quantity.ofNat 1⟩]) := by
  have hclean : verify [⟨0, 0, 0, Quantity.ofNat 1⟩] oneSecond.jobs oneSecond.units 0 = [] := by
    decide +kernel
  obtain ⟨hexact, hfinite⟩ := clean_iff_consistent_iff_measured oneSecond oneSecond_check 0
    (by decide) [⟨0, 0, 0, Quantity.ofNat 1⟩]
  have hiff := hfinite (List.forall_mem_singleton.mpr ⟨rfl, by decide +kernel⟩)
  exact ⟨oneSecond_check, by decide, hiff.mp hclean, hexact.mp hiff⟩

/-- Nothing is reported of a job that starts and finishes at infinity, though its duration is not
within the tolerance. -/
theorem Verification.clean_not_consistent_atInfinity :
    oneSecond.check = .ok () ∧ (0 : Binary64).isFinite = true ∧ (0 : Binary64) ≤ 0 ∧
      verify [⟨0, 0, Quantity.infinity, Quantity.infinity⟩] oneSecond.jobs oneSecond.units 0 = [] ∧
      ¬ oneSecond.Accounts (· ≤ ·) 0 [⟨0, 0, Quantity.infinity, Quantity.infinity⟩] := by
  refine ⟨oneSecond_check, rfl, by decide, by decide +kernel, fun h => ?_⟩
  have hmeasured := h.measures (Pool.valid_of_check oneSecond_check) _ List.mem_cons_self _
    List.mem_cons_self _ List.mem_cons_self rfl rfl
  exact absurd hmeasured (by decide +kernel)

end JobAllocation
