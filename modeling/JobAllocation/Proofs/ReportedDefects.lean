import JobAllocation.Proofs.CleanReports
import JobAllocation.Proofs.InputOrder
import JobAllocation.Proofs.RepeatedNumbers
import JobAllocation.Proofs.UnitIndependence

/-!
# What a report says of what

A report has two kinds of entries. Those of the first kind count the completions of a job: one entry
for each after the first, and one if there is none. Those of the second kind say what is wrong with
one completion, whatever the others are, and each of its defects is said once. So the order of the
completions and of the input does not matter but for the order of the report, and the tolerance only
decides which of the wrong durations are reported.
-/
namespace JobAllocation

variable {T : Type}

namespace Discrepancy

/-- Says something of one completion, and not how often its job was completed. -/
def isOwn : Discrepancy T → Bool
  | missing _ | duplicate _ => false
  | _ => true

variable [Quantity T]

/-- Is reported at a tolerance too, if it is reported at all. Only a wrong duration is ever
tolerated. -/
def exceeds (tolerance : T) : Discrepancy T → Bool
  | durationMismatch _ expected actual => tolerance < Quantity.magnitude (actual - expected)
  | _ => true

end Discrepancy

variable [Quantity T]

/-- What can be wrong with a completion by itself. -/
inductive Defect (pool : Pool T) (tolerance : T) (c : Completion T) : Discrepancy T → Prop where
  | negativeSpan (h : c.finish < c.start) :
      Defect pool tolerance c (.negativeSpan c.job c.start c.finish)
  | unknownJob (h : c.job ∉ pool.jobs.map (·.id)) : Defect pool tolerance c (.unknownJob c.job)
  | earlyStart (job : Job T) (hj : job ∈ pool.jobs) (hid : job.id = c.job)
      (h : c.start < job.arrival) :
      Defect pool tolerance c (.earlyStart c.job c.start job.arrival)
  | unknownUnit (hj : c.job ∈ pool.jobs.map (·.id)) (h : c.unit ∉ pool.units.map (·.id)) :
      Defect pool tolerance c (.unknownUnit c.job c.unit)
  | durationMismatch (job : Job T) (hj : job ∈ pool.jobs) (hid : job.id = c.job)
      (unit : ExecutionUnit T) (hu : unit ∈ pool.units) (huid : unit.id = c.unit)
      (h : tolerance < Quantity.magnitude (c.deviation job unit)) :
      Defect pool tolerance c
        (.durationMismatch c.job (Quantity.ofNat job.length / unit.speed) c.span)

theorem Defect.isOwn {pool : Pool T} {tolerance : T} {c : Completion T} {d : Discrepancy T}
    (h : Defect pool tolerance c d) : d.isOwn = true := by
  cases h <;> rfl

namespace Verification

variable {pool other : Pool T} {tolerance stricter : T} {c : Completion T}
  {completions again : List (Completion T)} {jobs : List (Job T)} {units : List (ExecutionUnit T)}

theorem checkDuration_eq {job : Job T} {unit : ExecutionUnit T} (hs : 0 < unit.speed) :
    checkDuration tolerance c job unit =
      if tolerance < Quantity.magnitude (c.deviation job unit) then
        [.durationMismatch c.job (Quantity.ofNat job.length / unit.speed) c.span]
      else [] := by
  unfold checkDuration
  simp only [executionTime_eq hs]
  rfl

theorem mem_checkCompletion_iff (hv : pool.Valid) {d : Discrepancy T} :
    d ∈ checkCompletion pool.jobs pool.units tolerance c ↔ Defect pool tolerance c d := by
  unfold checkCompletion
  rw [List.mem_append, mem_forbidden_iff]
  cases hjob : findJob? pool.jobs c.job with
  | none =>
    have hunknown := (findJob?_eq_none_iff hv.jobs_distinct).mp hjob
    rw [List.mem_singleton]
    constructor
    · rintro (⟨h, rfl⟩ | rfl)
      · exact .negativeSpan h
      · exact .unknownJob hunknown
    · rintro (h | - | ⟨job, hj, hid⟩ | ⟨hj⟩ | ⟨job, hj, hid⟩)
      · exact .inl ⟨h, rfl⟩
      · exact .inr rfl
      · exact absurd (hid ▸ List.mem_map_of_mem hj) hunknown
      · exact absurd hj hunknown
      · exact absurd (hid ▸ List.mem_map_of_mem hj) hunknown
  | some job =>
    obtain ⟨hj, hid⟩ := mem_of_findJob? hjob
    have hknown : c.job ∈ pool.jobs.map (·.id) := hid ▸ List.mem_map_of_mem hj
    have honly : ∀ other ∈ pool.jobs, other.id = c.job → other = job := fun other ho hoid =>
      List.inj_on_of_nodup_map hv.jobs_distinct ho hj (hoid.trans hid.symm)
    simp only [List.mem_append, mem_forbidden_iff]
    cases hunit : findUnit? pool.units c.unit with
    | none =>
      have hunknown := (findUnit?_eq_none_iff hv.units_distinct).mp hunit
      rw [List.mem_singleton]
      constructor
      · rintro (⟨h, rfl⟩ | ⟨h, rfl⟩ | rfl)
        · exact .negativeSpan h
        · exact .earlyStart job hj hid h
        · exact .unknownUnit hknown hunknown
      · rintro (h | h | ⟨other, ho, hoid, h⟩ | - | ⟨other, ho, hoid, unit, hu, huid⟩)
        · exact .inl ⟨h, rfl⟩
        · exact absurd hknown h
        · obtain rfl := honly other ho hoid
          exact .inr (.inl ⟨h, rfl⟩)
        · exact .inr (.inr rfl)
        · exact absurd (huid ▸ List.mem_map_of_mem hu) hunknown
    | some unit =>
      obtain ⟨hu, huid⟩ := mem_of_findUnit? hunit
      simp only [checkDuration_eq (hv.speed_pos unit hu), mem_forbidden_iff]
      constructor
      · rintro (⟨h, rfl⟩ | ⟨h, rfl⟩ | ⟨h, rfl⟩)
        · exact .negativeSpan h
        · exact .earlyStart job hj hid h
        · exact .durationMismatch job hj hid unit hu huid h
      · rintro (h | h | ⟨other, ho, hoid, h⟩ | ⟨-, h⟩ | ⟨other, ho, hoid, host, hh, hhid, h⟩)
        · exact .inl ⟨h, rfl⟩
        · exact absurd hknown h
        · obtain rfl := honly other ho hoid
          exact .inr (.inl ⟨h, rfl⟩)
        · exact absurd (huid ▸ List.mem_map_of_mem hu) h
        · obtain rfl := honly other ho hoid
          obtain rfl := List.inj_on_of_nodup_map hv.units_distinct hh hu (hhid.trans huid.symm)
          exact .inr (.inr ⟨h, rfl⟩)

theorem nodup_checkCompletion (c : Completion T) :
    (checkCompletion jobs units tolerance c).Nodup := by
  unfold checkCompletion
  cases findJob? jobs c.job with
  | none => split <;> simp
  | some job =>
    cases findUnit? units c.unit with
    | none => dsimp only; split <;> split <;> simp
    | some unit =>
      dsimp only
      unfold checkDuration
      cases executionTime job.length unit with
      | error => split <;> split <;> simp
      | ok => dsimp only; split <;> split <;> split <;> simp

theorem isOwn_of_mem_checkCompletion (hv : pool.Valid) :
    ∀ d ∈ checkCompletion pool.jobs pool.units tolerance c, d.isOwn = true :=
  fun _ hd => ((mem_checkCompletion_iff hv).mp hd).isOwn

theorem notMem_checkCompletion (hv : pool.Valid) {d : Discrepancy T} (hd : d.isOwn = false) :
    d ∉ checkCompletion pool.jobs pool.units tolerance c := by
  intro hm
  rw [isOwn_of_mem_checkCompletion hv d hm] at hd
  cases hd

theorem checkAll_eq (seen : List JobId) (completions : List (Completion T)) :
    checkAll jobs units tolerance seen completions =
      itemReport (·.job) .duplicate (checkCompletion jobs units tolerance) seen completions := by
  induction completions generalizing seen with
  | nil => rfl
  | cons c rest ih => rw [checkAll, itemReport, ih]

theorem filter_checkAll (hv : pool.Valid) (seen : List JobId) (completions : List (Completion T)) :
    (checkAll pool.jobs pool.units tolerance seen completions).filter (·.isOwn) =
      completions.flatMap (checkCompletion pool.jobs pool.units tolerance) := by
  rw [checkAll_eq]
  exact filter_itemReport (fun _ => rfl) (fun _ _ => isOwn_of_mem_checkCompletion hv) seen

omit [Quantity T] in
theorem filter_missing : (missing completions jobs).filter (·.isOwn) = [] := by
  rw [List.filter_eq_nil_iff]
  intro d hd
  obtain ⟨job, -, rfl⟩ := List.mem_map.mp hd
  exact Bool.false_ne_true

/-- Apart from counting, a report puts together what is to be said of each completion. -/
theorem filter_verify (hv : pool.Valid) (completions : List (Completion T)) :
    (verify completions pool.jobs pool.units tolerance).filter (·.isOwn) =
      completions.flatMap (checkCompletion pool.jobs pool.units tolerance) := by
  rw [verify, List.filter_append, filter_checkAll hv, filter_missing, List.append_nil]

section Counting

variable [DecidableEq T]

/-- Each completion of a job is reported as one too many if the job was seen before. -/
theorem count_duplicate_checkAll (hv : pool.Valid) (seen : List JobId)
    (completions : List (Completion T)) (id : JobId) :
    (checkAll pool.jobs pool.units tolerance seen completions).count (.duplicate id) =
      (completions.map (·.job)).count id - if id ∈ seen then 0 else 1 := by
  rw [checkAll_eq]
  exact count_repeated_itemReport (fun _ _ => Discrepancy.duplicate.inj)
    (fun _ _ => notMem_checkCompletion hv rfl) seen

theorem count_missing_checkAll (hv : pool.Valid) (seen : List JobId)
    (completions : List (Completion T)) (id : JobId) :
    (checkAll pool.jobs pool.units tolerance seen completions).count (.missing id) = 0 := by
  rw [checkAll_eq, count_itemReport (fun _ h => by cases h)
    (fun c _ => nodup_checkCompletion c) seen, List.countP_eq_zero]
  intro c _
  simpa using notMem_checkCompletion hv rfl

omit [Quantity T] in
theorem count_duplicate_missing (id : JobId) :
    (missing completions jobs).count (.duplicate id) = 0 := by
  simp [missing, List.count_eq_zero]

omit [Quantity T] in
theorem count_missing_missing (hd : (jobs.map (·.id)).Nodup) (id : JobId) :
    (missing completions jobs).count (.missing id) =
      if id ∈ jobs.map (·.id) ∧ id ∉ completions.map (·.job) then 1 else 0 := by
  have hmissing : missing completions jobs = ((jobs.filter fun job =>
      !completions.any (·.job == job.id)).map (·.id)).map .missing := List.map_map.symm
  have hn : ((jobs.filter fun job => !completions.any (·.job == job.id)).map (·.id)).Nodup :=
    hd.sublist (List.filter_sublist.map _)
  have hmem : id ∈ (jobs.filter fun job => !completions.any (·.job == job.id)).map (·.id) ↔
      id ∈ jobs.map (·.id) ∧ id ∉ completions.map (·.job) := by
    simp only [List.mem_map, List.mem_filter]
    grind
  rw [hmissing, List.count_map_of_injective _ _ fun _ _ h => Discrepancy.missing.inj h, hn.count]
  simp only [hmem]

end Counting

theorem checkCompletion_reordered (hv : pool.Valid) (h : pool.Reordered other) (c : Completion T) :
    checkCompletion other.jobs other.units tolerance c =
      checkCompletion pool.jobs pool.units tolerance c := by
  have hjob : findJob? other.jobs c.job = findJob? pool.jobs c.job :=
    (findRev?_perm hv.jobs_distinct h.jobs c.job).symm
  have hunit : findUnit? other.units c.unit = findUnit? pool.units c.unit :=
    (findRev?_perm hv.units_distinct h.units c.unit).symm
  rw [checkCompletion, hjob, hunit, checkCompletion]

/-- Nothing but a wrong duration is tolerated. -/
theorem filter_forbidden {p : Prop} [Decidable p] {d : Discrepancy T} (hd : d.exceeds tolerance) :
    (if p then [d] else []).filter (·.exceeds tolerance) = if p then [d] else [] := by
  split <;> simp [hd]

section Looser

variable {looser : T}

theorem checkDuration_looser (h : tolerance ≤ looser) (c : Completion T) (job : Job T)
    (unit : ExecutionUnit T) :
    checkDuration looser c job unit =
      (checkDuration tolerance c job unit).filter (·.exceeds looser) := by
  unfold checkDuration
  cases executionTime job.length unit with
  | error => rfl
  | ok expected =>
    dsimp only
    by_cases hlooser : looser < Quantity.magnitude (c.span - expected)
    · rw [if_pos hlooser, if_pos (Quantity.lt_of_le_of_lt h hlooser)]
      simp [Discrepancy.exceeds, hlooser]
    · rw [if_neg hlooser]
      split <;> simp [Discrepancy.exceeds, hlooser]

theorem checkCompletion_looser (h : tolerance ≤ looser) (c : Completion T) :
    checkCompletion jobs units looser c =
      (checkCompletion jobs units tolerance c).filter (·.exceeds looser) := by
  unfold checkCompletion
  rw [List.filter_append, filter_forbidden rfl]
  cases findJob? jobs c.job with
  | none => rfl
  | some job =>
    dsimp only
    rw [List.filter_append, filter_forbidden rfl]
    cases findUnit? units c.unit with
    | none => rfl
    | some unit =>
      dsimp only
      rw [checkDuration_looser h]

theorem checkAll_looser (h : tolerance ≤ looser) (seen : List JobId)
    (completions : List (Completion T)) :
    checkAll jobs units looser seen completions =
      (checkAll jobs units tolerance seen completions).filter (·.exceeds looser) := by
  induction completions generalizing seen with
  | nil => rfl
  | cons c rest ih =>
    rw [checkAll, checkAll, List.filter_append, List.filter_append, filter_forbidden rfl,
      checkCompletion_looser h, ih]

theorem verify_looser (h : tolerance ≤ looser) (completions : List (Completion T)) :
    verify completions jobs units looser =
      (verify completions jobs units tolerance).filter (·.exceeds looser) := by
  have hmissing : (missing completions jobs).filter (·.exceeds looser) =
      missing completions jobs := by
    rw [List.filter_eq_self]
    intro d hd
    obtain ⟨job, -, rfl⟩ := List.mem_map.mp hd
    rfl
  rw [verify, verify, List.filter_append, hmissing, checkAll_looser h]

end Looser

section Itemized

variable [DecidableEq T]

/-- Counts the completions of each job, and says of each completion what is wrong with it by
itself. -/
structure Itemizes (pool : Pool T) (tolerance : T) (completions : List (Completion T))
    (report : List (Discrepancy T)) : Prop where
  duplicates : ∀ id, report.count (.duplicate id) = (completions.map (·.job)).count id - 1
  missing : ∀ id, report.count (.missing id) =
    if id ∈ pool.jobs.map (·.id) ∧ id ∉ completions.map (·.job) then 1 else 0
  own : report.filter (·.isOwn) =
    completions.flatMap (checkCompletion pool.jobs pool.units tolerance)

theorem itemizes_verify (hv : pool.Valid) (completions : List (Completion T)) :
    Itemizes pool tolerance completions
      (verify completions pool.jobs pool.units tolerance) where
  duplicates id := by
    rw [verify, List.count_append, count_duplicate_checkAll hv, count_duplicate_missing]
    simp
  missing id := by
    rw [verify, List.count_append, count_missing_checkAll hv,
      count_missing_missing hv.jobs_distinct, Nat.zero_add]
  own := filter_verify hv completions

/-- Reports that itemize the same completions are the same but for their order. -/
theorem Itemizes.perm {report later : List (Discrepancy T)}
    (h : Itemizes pool tolerance completions report) (h' : Itemizes other tolerance again later)
    (hv : pool.Valid) (hp : pool.Reordered other) (hc : completions.Perm again) :
    report.Perm later := by
  have hjobs : (completions.map (·.job)).Perm (again.map (·.job)) := hc.map _
  have hown : (report.filter (·.isOwn)).Perm (later.filter (·.isOwn)) := by
    rw [h.own, h'.own]
    exact hc.flatMap fun c _ => .of_eq (checkCompletion_reordered hv hp c).symm
  refine List.perm_iff_count.mpr fun d => ?_
  cases hd : d.isOwn with
  | true => rw [← List.count_filter hd, hown.count_eq, List.count_filter hd]
  | false =>
    cases d with
    | duplicate id => rw [h.duplicates, h'.duplicates, hjobs.count_eq]
    | missing id =>
      rw [h.missing, h'.missing]
      simp only [(hp.jobs.map (·.id)).mem_iff, hjobs.mem_iff]
    | _ => cases hd

end Itemized

end Verification

/-- A report has one entry for each completion of a job after the first, one for each job without
any, and for each completion what is wrong with it by itself, each defect once. The order of the
completions and of the input only orders the report, and a looser tolerance only leaves out some of
the wrong durations. -/
theorem Verification.each_defect_reported_once (pool : Pool Binary64) (valid : pool.check = .ok ())
    (tolerance : Binary64) (completions : List (Completion Binary64)) :
    Itemizes pool tolerance completions (verify completions pool.jobs pool.units tolerance) ∧
      (∀ c, (checkCompletion pool.jobs pool.units tolerance c).Nodup ∧
        ∀ d, d ∈ checkCompletion pool.jobs pool.units tolerance c ↔ Defect pool tolerance c d) ∧
      (∀ other again, pool.Reordered other → completions.Perm again →
        (verify completions pool.jobs pool.units tolerance).Perm
          (verify again other.jobs other.units tolerance)) ∧
      ∀ looser, tolerance ≤ looser →
        verify completions pool.jobs pool.units looser =
          (verify completions pool.jobs pool.units tolerance).filter (·.exceeds looser) := by
  have hv := Pool.valid_of_check valid
  refine ⟨itemizes_verify hv completions, fun c => ⟨nodup_checkCompletion c, fun d =>
    mem_checkCompletion_iff hv⟩, fun other again hp hc => ?_, fun looser h =>
    verify_looser h completions⟩
  exact (itemizes_verify hv completions).perm (itemizes_verify (hv.of_reordered hp) again) hv hp hc

/-- Two completions of one job, one of them on a unit that is not there, two of a job that is not
there, one of them ending before it starts, one completion before the job arrives, and none of the
last job. -/
def muddled : List (Completion Binary64) :=
  [⟨0, 0, 0, Quantity.ofNat 10⟩, ⟨9, 0, 0, Quantity.ofNat 1⟩, ⟨0, 7, 0, Quantity.ofNat 1⟩,
    ⟨9, 1, Quantity.ofNat 1, 0⟩, ⟨1, 1, 0, Quantity.ofNat 1⟩]

theorem Verification.each_defect_reported_once_muddled :
    twoUnits.check = .ok () ∧
      (verify muddled twoUnits.jobs twoUnits.units 0).count (.duplicate 9) = 1 ∧
      (verify muddled twoUnits.jobs twoUnits.units 0).count (.missing 2) = 1 ∧
      Discrepancy.earlyStart 1 0 (Quantity.ofNat 1) ∈
        verify muddled twoUnits.jobs twoUnits.units 0 ∧
      (verify muddled twoUnits.jobs twoUnits.units 0).Perm
        (verify muddled.reverse twoUnits.jobs twoUnits.units 0) ∧
      verify muddled twoUnits.jobs twoUnits.units (Quantity.ofNat 5) =
        (verify muddled twoUnits.jobs twoUnits.units 0).filter (·.exceeds (Quantity.ofNat 5)) := by
  have hcheck : twoUnits.check = .ok () := twoUnits.check_eq_ok_iff.mpr (by decide +kernel)
  obtain ⟨hitems, hown, hperm, hlooser⟩ :=
    each_defect_reported_once twoUnits hcheck 0 muddled
  have hearly : Discrepancy.earlyStart 1 0 (Quantity.ofNat 1) ∈
      muddled.flatMap (checkCompletion twoUnits.jobs twoUnits.units 0) := by
    refine List.mem_flatMap.mpr ⟨⟨1, 1, 0, Quantity.ofNat 1⟩, by simp [muddled], ?_⟩
    exact ((hown _).2 _).mpr (.earlyStart ⟨1, "late", 200, Quantity.ofNat 1, none, 200⟩
      (by simp [twoUnits]) rfl (by decide +kernel))
  exact ⟨hcheck, (hitems.duplicates 9).trans (by decide), (hitems.missing 2).trans (by decide),
    (List.mem_filter.mp (hitems.own ▸ hearly)).1,
    hperm twoUnits muddled.reverse ⟨.refl _, .refl _⟩ muddled.reverse_perm.symm,
    hlooser _ (by decide +kernel)⟩

end JobAllocation
