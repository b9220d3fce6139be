import JobAllocation.Proofs.PriorityOrder

/-!
# Shortest job first by the count of instructions

Shortest job first scores a length by the quantity that it rounds to. Rounding keeps the order of
lengths but not their differences: above `2 ^ 53` lengths that are not equal may have one score, and
then the lower number decides. On one unit this is the only way in which a job can be passed over by
a longer one.
-/
namespace JobAllocation.ListScheduling

variable {T : Type}

/-- What holds of the jobs of any two completions, the second of which had arrived when the first
started. -/
def AtEachStart [LE T] (P : Job T → Job T → Prop) (jobs : List (Job T))
    (completions : List (Completion T)) : Prop :=
  completions.Pairwise fun c d =>
    ∀ a ∈ jobs, a.id = c.job → ∀ b ∈ jobs, b.id = d.job → b.arrival ≤ c.start → P a b

/-- Shorter, or as long with a lower number. -/
def Shorter (a b : Job T) : Prop := a.length < b.length ∨ a.length = b.length ∧ a.id < b.id

instance (a b : Job T) : Decidable (Shorter a b) := inferInstanceAs (Decidable (_ ∨ _))

variable [Quantity T]

/-- No job that had arrived was passed over by one that is longer, or as long with a higher
number. -/
def ShortestFirst (jobs : List (Job T)) (completions : List (Completion T)) : Prop :=
  AtEachStart Shorter jobs completions

instance (jobs : List (Job T)) (completions : List (Completion T)) :
    Decidable (ShortestFirst jobs completions) :=
  inferInstanceAs (Decidable (completions.Pairwise _))

/-- Jobs whose lengths get one score. -/
def ScoredAlike (a b : Job T) : Prop :=
  Quantity.totalOrder (Rule.spt.score a : T) (Rule.spt.score b) = .eq

/-- Shortest job first compares scores, and numbers where these tie. -/
theorem score_lt_or_of_precedes {a b : Job T} (h : sjf.rules.ranking.precedes a b = true) :
    Quantity.totalOrder (Rule.spt.score a : T) (Rule.spt.score b) = .lt ∨
      ScoredAlike a b ∧ a.id < b.id := by
  rw [Ranking.precedes, beq_iff_eq] at h
  rcases Ordering.then_eq_lt.mp h with hlt | ⟨heq, hid⟩
  · exact .inl hlt
  · exact .inr ⟨heq, Nat.compare_eq_lt.mp hid⟩

theorem AtEachStart.imp {P Q : Job T → Job T → Prop} {jobs : List (Job T)}
    {completions : List (Completion T)} (h : AtEachStart P jobs completions)
    (hpq : ∀ a ∈ jobs, ∀ b ∈ jobs, P a b → Q a b) : AtEachStart Q jobs completions := by
  refine List.Pairwise.imp ?_ h
  intro c d hp a ha hac b hb hbd harrived
  exact hpq a ha b hb (hp a ha hac b hb hbd harrived)

theorem AtEachStart.and {P Q : Job T → Job T → Prop} {jobs : List (Job T)}
    {completions : List (Completion T)} (hp : AtEachStart P jobs completions)
    (hq : AtEachStart Q jobs completions) :
    AtEachStart (fun a b => P a b ∧ Q a b) jobs completions := by
  refine (List.pairwise_and_iff.mpr ⟨hp, hq⟩).imp ?_
  intro c d h a ha hac b hb hbd harrived
  exact ⟨h.1 a ha hac b hb hbd harrived, h.2 a ha hac b hb hbd harrived⟩

/-- More work never stands lower. -/
theorem lt_of_place_ofNat_lt {n m : Nat}
    (h : (Binary64.ofNat n).place < (Binary64.ofNat m).place) : n < m := by
  by_contra hle
  have hmono := Binary64.cutoff_mono (Nat.mul_le_mul_right Binary64.one (Nat.le_of_not_lt hle))
  rw [Binary64.place_ofNat_eq_cutoff, Binary64.place_ofNat_eq_cutoff] at h
  omega

/-- Amounts of work that are not rounded are told apart. -/
theorem eq_of_place_ofNat_eq {n m : Nat} (hn : n ≤ 2 ^ 53) (hm : m ≤ 2 ^ 53)
    (h : (Binary64.ofNat n).place = (Binary64.ofNat m).place) : n = m := by
  rw [Binary64.place_ofNat hn, Binary64.place_ofNat hm] at h
  exact Nat.eq_of_mul_eq_mul_right Binary64.one_pos (Int.ofNat_inj.mp h)

/-- A job that shortest job first puts before another is shorter, unless they are scored alike and
the number decides. -/
theorem shorter_iff_of_precedes {a b : Job Binary64}
    (h : sjf.rules.ranking.precedes a b = true) :
    Shorter a b ↔ (ScoredAlike a b → a.length ≤ b.length) := by
  rcases score_lt_or_of_precedes h with hlt | ⟨halike, hid⟩
  · have hlength : a.length < b.length := lt_of_place_ofNat_lt (Int.compare_eq_lt.mp hlt)
    exact ⟨fun _ _ => Nat.le_of_lt hlength, fun _ => .inl hlength⟩
  · constructor
    · rintro (hlt | ⟨heq, -⟩) -
      · exact Nat.le_of_lt hlt
      · exact Nat.le_of_eq heq
    · intro hle
      exact (Nat.lt_or_eq_of_le (hle halike)).imp_right fun heq => ⟨heq, hid⟩

/-- On one unit shortest job first puts first what its ranking does, among the jobs that had arrived
at each start. -/
theorem exists_sjf_single [StrictQuantity T] {pool : Pool T} {unit : ExecutionUnit T}
    (valid : pool.check = .ok ()) (single : pool.units = [unit]) :
    ∃ run, sjf.allocate pool = .ok run ∧
      (run.schedule.completions.map (·.job)).Perm (pool.jobs.map (·.id)) ∧
      AtEachStart (fun a b => sjf.rules.ranking.precedes a.reset b.reset = true) pool.jobs
        run.schedule.completions := by
  have hv := Pool.valid_of_check valid
  obtain ⟨run, hok, hdecisions⟩ := exists_decisions_allocateBy sjf.rules.engine valid
  refine ⟨run, hok, pool.map_id_freshJobs ▸ hdecisions.map_job_perm, ?_⟩
  refine (hdecisions.single hv single).1.imp ?_
  intro c d h a ha hac b hb hbd harrived
  rw [← RuleChain.rankingAt_engine sjf.rules c.start]
  exact h a.reset (List.mem_map_of_mem ha) hac b.reset (List.mem_map_of_mem hb) hbd harrived

/-- On one unit shortest job first passes over no job for one with more instructions, exactly if
among jobs that are scored alike it takes none before a shorter one. So it does if lengths that are
scored alike are equal, and if no length is so large that its score is rounded. -/
theorem shortestFirst_iff (pool : Pool Binary64) (unit : ExecutionUnit Binary64)
    (valid : pool.check = .ok ()) (single : pool.units = [unit]) :
    ∃ run, sjf.allocate pool = .ok run ∧
      (run.schedule.completions.map (·.job)).Perm (pool.jobs.map (·.id)) ∧
      (ShortestFirst pool.jobs run.schedule.completions ↔
        AtEachStart (fun a b => ScoredAlike a b → a.length ≤ b.length) pool.jobs
          run.schedule.completions) ∧
      ((∀ a ∈ pool.jobs, ∀ b ∈ pool.jobs, ScoredAlike a b → a.length = b.length) →
        ShortestFirst pool.jobs run.schedule.completions) ∧
      ((∀ job ∈ pool.jobs, job.length ≤ 2 ^ 53) →
        ShortestFirst pool.jobs run.schedule.completions) := by
  obtain ⟨run, hok, hperm, hranked⟩ := exists_sjf_single valid single
  have hiff : ShortestFirst pool.jobs run.schedule.completions ↔
      AtEachStart (fun a b => ScoredAlike a b → a.length ≤ b.length) pool.jobs
        run.schedule.completions := by
    constructor
    · intro h
      exact (hranked.and h).imp fun a _ b _ hab => (shorter_iff_of_precedes hab.1).mp hab.2
    · intro h
      exact (hranked.and h).imp fun a _ b _ hab => (shorter_iff_of_precedes hab.1).mpr hab.2
  have hdistinct (h : ∀ a ∈ pool.jobs, ∀ b ∈ pool.jobs, ScoredAlike a b → a.length = b.length) :
      ShortestFirst pool.jobs run.schedule.completions :=
    hiff.mpr (hranked.imp fun a ha b hb _ halike => Nat.le_of_eq (h a ha b hb halike))
  refine ⟨run, hok, hperm, hiff, hdistinct, fun hsmall => hdistinct fun a ha b hb halike => ?_⟩
  exact eq_of_place_ofNat_eq (hsmall a ha) (hsmall b hb) (Int.compare_eq_eq.mp halike)

/-- Jobs of which the shortest arrives while another one runs. -/
def shortestLate : Pool Binary64 where
  jobs := [⟨0, "long", 300, 0, none, 300⟩, ⟨1, "middle", 200, 0, none, 200⟩,
    ⟨2, "short", 100, Quantity.ofNat 1, none, 100⟩]
  units := [⟨0, "only", Quantity.ofNat 100, 0⟩]

theorem shortestFirst_iff_shortestLate :
    shortestLate.check = .ok () ∧ shortestLate.units = [⟨0, "only", Quantity.ofNat 100, 0⟩] ∧
      ∃ run, sjf.allocate shortestLate = .ok run ∧
        ShortestFirst shortestLate.jobs run.schedule.completions := by
  have hcheck : shortestLate.check = .ok () :=
    shortestLate.check_eq_ok_iff.mpr (by decide +kernel)
  obtain ⟨run, hok, -, -, -, hsmall⟩ := shortestFirst_iff shortestLate _ hcheck rfl
  exact ⟨hcheck, rfl, run, hok, hsmall (by decide)⟩

/-- Two jobs that differ by one instruction, the longer of which rounds to the length of the other
and has the lower number. -/
def oneInstructionApart : Pool Binary64 where
  jobs := [⟨0, "longer", 9007199254740993, 0, none, 9007199254740993⟩,
    ⟨1, "shorter", 9007199254740992, 0, none, 9007199254740992⟩]
  units := [⟨0, "only", Quantity.ofNat 9007199254740992, 0⟩]

/-- The longer job goes first. -/
theorem not_shortestFirst_oneInstructionApart :
    oneInstructionApart.check = .ok () ∧
      oneInstructionApart.units = [⟨0, "only", Quantity.ofNat 9007199254740992, 0⟩] ∧
      ∃ run, sjf.allocate oneInstructionApart = .ok run ∧
        ¬ ShortestFirst oneInstructionApart.jobs run.schedule.completions :=
  ⟨oneInstructionApart.check_eq_ok_iff.mpr (by decide +kernel), rfl,
    exists_ok_of_decide (by decide +kernel)⟩

end JobAllocation.ListScheduling
