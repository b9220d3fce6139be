import JobAllocation.Proofs.RoundRobinPlacement
import JobAllocation.Proofs.RoundRobinTrace

/-!
# In which order round robin gives its turns

The queue goes round: in every round each job that still has work gets one turn, in the order of the
input. Who runs when is a matter of the lengths and the quantum only.

The invariant of the run says how far its round is. At the head of the queue are the jobs that the
round has yet to reach, and behind them those that it has passed and that have work left.
-/
namespace JobAllocation.RoundRobin

variable {T : Type}

/-- The jobs that have work left after `k` full quanta, so a turn in round `k`, counted from 0. -/
def round (quantum : Nat) (jobs : List (Job T)) (k : Nat) : List (Job T) :=
  jobs.filter fun job => k * quantum < job.length

/-- The numbers of the jobs of the first `n` rounds, round by round. -/
def rounds (quantum : Nat) (jobs : List (Job T)) (n : Nat) : List JobId :=
  (List.range n).flatMap fun k => (round quantum jobs k).map (·.id)

section Rounds

variable {quantum : Nat} {jobs others : List (Job T)} {k m n : Nat}

theorem round_append (front back : List (Job T)) :
    round quantum (front ++ back) k = round quantum front k ++ round quantum back k :=
  List.filter_append ..

theorem rounds_succ : rounds quantum jobs (n + 1) =
    rounds quantum jobs n ++ (round quantum jobs n).map (·.id) := by
  rw [rounds, List.range_succ, List.flatMap_append, List.flatMap_singleton, rounds]

/-- A job without a turn in one round has none in the next. -/
theorem round_eq_nil_of_le (h : round quantum jobs m = []) (hmn : m ≤ n) :
    round quantum jobs n = [] := by
  rw [round, List.filter_eq_nil_iff] at h ⊢
  intro job hj hlt
  have hle := Nat.mul_le_mul_right quantum hmn
  exact h job hj (decide_eq_true (Nat.lt_of_le_of_lt hle (of_decide_eq_true hlt)))

/-- Rounds after an empty one add nothing. -/
theorem rounds_eq_of_le (h : round quantum jobs m = []) (hmn : m ≤ n) :
    rounds quantum jobs n = rounds quantum jobs m := by
  induction hmn with
  | refl => rfl
  | step hmn ih => rw [rounds_succ, round_eq_nil_of_le h hmn, List.map_nil, List.append_nil, ih]

/-- Rounds are a matter of numbers and lengths. -/
theorem rounds_congr (h : jobs.map (fun job => (job.id, job.length)) =
    others.map fun job => (job.id, job.length)) (n : Nat) :
    rounds quantum jobs n = rounds quantum others n := by
  have hround (jobs : List (Job T)) (k : Nat) : (round quantum jobs k).map (·.id) =
      ((jobs.map fun job => (job.id, job.length)).filter (k * quantum < ·.2)).map (·.1) := by
    rw [List.filter_map, List.map_map]
    rfl
  simp only [rounds, hround, h]

end Rounds

/-- A job after so many instructions. -/
def afterWork (work : Nat) (job : Job T) : Job T := { job with remaining := job.length - work }

/-- What has been granted and what waits in round `k`, which has passed some jobs and has the others
before it. -/
structure InRound (quantum : Nat) (jobs queue : List (Job T)) (slices : List (Slice T)) (k : Nat)
    (passed ahead : List (Job T)) : Prop where
  jobs_eq : jobs = passed ++ ahead
  trace : slices.map (·.job) = rounds quantum jobs k ++ (round quantum passed k).map (·.id)
  queue_eq : queue = (round quantum ahead k).map (afterWork (k * quantum)) ++
    (round quantum passed (k + 1)).map (afterWork ((k + 1) * quantum))

/-- The run is in some round. -/
def Turning (quantum : Nat) (jobs queue : List (Job T)) (slices : List (Slice T)) : Prop :=
  ∃ k passed ahead, InRound quantum jobs queue slices k passed ahead

section Turning

variable {quantum k : Nat} {jobs queue passed ahead rest : List (Job T)} {job : Job T}
  {slices : List (Slice T)}

theorem turning_start [Quantity T] {pool : Pool T} (hv : pool.Valid) :
    Turning quantum pool.jobs pool.freshJobs [] := by
  refine ⟨0, [], pool.jobs, rfl, rfl, ?_⟩
  have hall : round quantum pool.jobs 0 = pool.jobs := List.filter_eq_self.mpr fun job hj => by
    simpa using (hv.jobs_valid job hj).length_pos
  rw [hall, Nat.zero_mul]
  exact (List.append_nil _).symm

/-- A round that has nobody before it is over, and the next one begins. -/
theorem InRound.next_round (h : InRound quantum jobs queue slices k passed ahead)
    (hnone : round quantum ahead k = []) :
    InRound quantum jobs queue slices (k + 1) [] jobs where
  jobs_eq := rfl
  trace := by
    have hround : round quantum jobs k = round quantum passed k := by
      rw [h.jobs_eq, round_append, hnone, List.append_nil]
    rw [h.trace, rounds_succ, hround]
    exact (List.append_nil _).symm
  queue_eq := by
    have hround : round quantum jobs (k + 1) = round quantum passed (k + 1) := by
      rw [h.jobs_eq, round_append, round_eq_nil_of_le hnone (Nat.le_succ k), List.append_nil]
    rw [h.queue_eq, hnone, hround]
    exact (List.append_nil _).symm

/-- The round passes jobs that are done, up to one that has work left. -/
theorem InRound.exists_source (h : InRound quantum jobs queue slices k passed ahead)
    (hsome : round quantum ahead k ≠ []) :
    ∃ passed source ahead, k * quantum < source.length ∧
      InRound quantum jobs queue slices k passed (source :: ahead) := by
  obtain ⟨source, later, hround⟩ := List.exists_cons_of_ne_nil hsome
  obtain ⟨skipped, ahead, rfl, hskipped, hsource, hlater⟩ := List.filter_eq_cons_iff.mp hround
  have hnone : round quantum skipped k = [] := List.filter_eq_nil_iff.mpr hskipped
  refine ⟨passed ++ skipped, source, ahead, of_decide_eq_true hsource, ?_, ?_, ?_⟩
  · rw [h.jobs_eq, List.append_assoc]
  · rw [h.trace, round_append, hnone, List.append_nil]
  · rw [h.queue_eq, round_append, round_append, hnone, round_eq_nil_of_le hnone (Nat.le_succ k),
      List.nil_append, List.append_nil]

theorem Turning.exists_source (h : Turning quantum jobs (job :: rest) slices) :
    ∃ k passed source ahead, k * quantum < source.length ∧
      InRound quantum jobs (job :: rest) slices k passed (source :: ahead) := by
  obtain ⟨k, passed, ahead, h⟩ := h
  by_cases hnone : round quantum ahead k = []
  · have hnext := h.next_round hnone
    refine ⟨k + 1, hnext.exists_source fun hjobs => ?_⟩
    have hqueue := hnext.queue_eq
    rw [hjobs] at hqueue
    exact List.cons_ne_nil job rest hqueue
  · exact ⟨k, h.exists_source hnone⟩

/-- The head of the queue is the next job of the round. After its turn the round has passed it. -/
theorem InRound.turn [Quantity T] {source : Job T} {schedule : Schedule T}
    {units : List (ExecutionUnit T)} {unit : ExecutionUnit T} {slice : Slice T}
    (h : InRound quantum jobs (job :: rest) schedule.slices k passed (source :: ahead))
    (hs : k * quantum < source.length) (ht : Turn quantum job units schedule unit slice) :
    InRound quantum jobs (requeue job slice.remaining rest) (record schedule slice).slices k
      (passed ++ [source]) ahead := by
  have hround : round quantum (source :: ahead) k = source :: round quantum ahead k :=
    List.filter_cons_of_pos (decide_eq_true hs)
  have hqueue := h.queue_eq
  rw [hround, List.map_cons, List.cons_append] at hqueue
  obtain ⟨rfl, rfl⟩ := List.cons.inj hqueue
  have hleft : slice.remaining = source.length - (k + 1) * quantum := by
    rw [ht.slice_remaining, Nat.succ_mul]
    simp only [Portion.next, afterWork]
    omega
  have hagain : round quantum [source] (k + 1) = if 0 < slice.remaining then [source] else [] := by
    rw [round, List.filter_singleton, hleft]
    simp only [Nat.sub_pos_iff_lt, Bool.cond_decide]
  refine ⟨?_, ?_, ?_⟩
  · rw [h.jobs_eq, List.append_assoc, List.singleton_append]
  · have hown : round quantum [source] k = [source] :=
      List.filter_cons_of_pos (decide_eq_true hs)
    rw [record_slices, List.map_append, h.trace, List.map_singleton, ht.slice_job, round_append,
      hown, List.map_append, List.append_assoc]
    rfl
  · rw [round_append, hagain, requeue]
    split
    · rw [List.map_append, List.map_singleton, List.append_assoc, hleft]
      rfl
    · rw [List.append_nil]

theorem Turning.turn [Quantity T] {schedule : Schedule T} {units : List (ExecutionUnit T)}
    {unit : ExecutionUnit T} {slice : Slice T}
    (h : Turning quantum jobs (job :: rest) schedule.slices)
    (ht : Turn quantum job units schedule unit slice) :
    Turning quantum jobs (requeue job slice.remaining rest) (record schedule slice).slices := by
  obtain ⟨k, passed, source, ahead, hs, h⟩ := h.exists_source
  exact ⟨k, _, _, h.turn hs ht⟩

/-- When nobody waits, the last round is over. -/
theorem Turning.exists_rounds (h : Turning quantum jobs [] slices) :
    ∃ n, round quantum jobs n = [] ∧ slices.map (·.job) = rounds quantum jobs n := by
  obtain ⟨k, passed, ahead, h⟩ := h
  obtain ⟨hahead, -⟩ := List.append_eq_nil_iff.mp h.queue_eq.symm
  have hnext := h.next_round (List.map_eq_nil_iff.mp hahead)
  obtain ⟨hjobs, -⟩ := List.append_eq_nil_iff.mp hnext.queue_eq.symm
  exact ⟨k + 1, List.map_eq_nil_iff.mp hjobs, hnext.trace.trans (List.append_nil _)⟩

end Turning

/-- The instructions done of a job. -/
def workDone (slices : List (Slice T)) (id : JobId) : Nat :=
  ((slices.filter (·.job == id)).map (·.work)).sum

/-- One turn for a job that the slices leave with work to do. -/
def turnsDue (slices : List (Slice T)) (job : Job T) : Nat :=
  if workDone slices job.id < job.length then 1 else 0

/-- Since the previous slice of its job, each other job that had work left then has had one turn. -/
def OthersOnce (jobs : List (Job T)) (front : List (Slice T)) (slice : Slice T) : Prop :=
  ∀ before previous between, front = before ++ previous :: between →
    previous.job = slice.job → (∀ s ∈ between, s.job ≠ slice.job) →
    ∀ job ∈ jobs, job.id ≠ slice.job →
      between.countP (·.job == job.id) = turnsDue before job

theorem workDone_le_append (front back : List (Slice T)) (id : JobId) :
    workDone front id ≤ workDone (front ++ back) id := by
  rw [workDone, workDone, List.filter_append, List.map_append, List.sum_append]
  exact Nat.le_add_right _ _

/-- Since the last slice of a job that waits, the jobs before it in the queue have had no turn, and
of the others those that had work left have had one. -/
structure Rotating (jobs queue : List (Job T)) (slices : List (Slice T)) : Prop where
  others : AtEach (OthersOnce jobs) slices
  since : ∀ before last between, slices = before ++ last :: between →
    (∀ s ∈ between, s.job ≠ last.job) → ∀ first behind,
    queue.map (·.id) = first ++ last.job :: behind → ∀ job ∈ jobs, job.id ≠ last.job →
      between.countP (·.job == job.id) = if job.id ∈ first then 0 else turnsDue before job

theorem rotating_start (jobs queue : List (Job T)) : Rotating jobs queue [] where
  others := atEach_nil _
  since := by simp

section Rotating

variable {quantum : Nat} {hq : 0 < quantum} {jobs queue rest : List (Job T)} {job : Job T}
  {schedule : Schedule T}

theorem Serving.workDone_add_left (h : Serving hq jobs queue schedule) (hj : job ∈ jobs) :
    workDone schedule.slices job.id + left queue job.id = job.length := by
  have hsum := congrArg (fun ps => (ps.map Portion.work).sum) (h.portions job hj)
  simp only [List.map_append, List.sum_append, List.map_map, Portion.sum_work_all] at hsum
  exact hsum

/-- A job that does not wait has no work left. -/
theorem Serving.turnsDue_eq_zero (h : Serving hq jobs queue schedule) (hj : job ∈ jobs)
    (hn : job.id ∉ queue.map (·.id)) : turnsDue schedule.slices job = 0 := by
  have hwork := h.workDone_add_left hj
  rw [left_eq_zero hn] at hwork
  exact if_neg (by omega)

/-- A job that waits has had work left all along. -/
theorem Serving.turnsDue_eq_one (h : Serving hq jobs (job :: rest) schedule) {source : Job T}
    (hs : source ∈ jobs) (hid : source.id = job.id) {before after : List (Slice T)}
    (hsplit : schedule.slices = before ++ after) : turnsDue before source = 1 := by
  have hwork := h.workDone_add_left hs
  have hpos := h.waiting job List.mem_cons_self
  have hle := workDone_le_append before after source.id
  rw [left_cons, if_pos hid.symm, hsplit] at hwork
  exact if_pos (by omega)

variable [Quantity T] {units : List (ExecutionUnit T)} {unit : ExecutionUnit T} {slice : Slice T}

/-- The turn of the head of the queue comes when every other job has had the turns due to it. -/
theorem Rotating.others_turn (h : Rotating jobs (job :: rest) schedule.slices)
    (ht : Turn quantum job units schedule unit slice) :
    AtEach (OthersOnce jobs) (schedule.slices ++ [slice]) := by
  refine atEach_concat.mpr ⟨h.others, ?_⟩
  intro before previous between hsplit hprevious hbetween other ho hne
  rw [← hprevious] at hbetween hne
  have hhead : (job :: rest).map (·.id) = [] ++ previous.job :: rest.map (·.id) := by
    rw [hprevious, ht.slice_job]
    rfl
  simpa using h.since before previous between hsplit hbetween [] _ hhead other ho hne

omit [Quantity T] in
/-- Of the jobs that wait, only the one that has just had its turn has moved. -/
theorem split_of_requeue {remaining : Nat} (hn : job.id ∉ rest.map (·.id)) {id : JobId}
    {first behind : List JobId}
    (h : (requeue job remaining rest).map (·.id) = first ++ id :: behind) :
    (id = job.id ∧ first = rest.map (·.id)) ∨
      id ≠ job.id ∧ ∃ behind, rest.map (·.id) = first ++ id :: behind := by
  have hne {behind : List JobId} (hrest : rest.map (·.id) = first ++ id :: behind) :
      id ≠ job.id := by
    rintro rfl
    exact hn (hrest ▸ List.mem_append_right _ List.mem_cons_self)
  rw [map_id_requeue] at h
  split at h
  · rcases concat_eq_split h with ⟨hfirst, hid, -⟩ | ⟨behind, -, hrest⟩
    · exact .inl ⟨hid.symm, hfirst.symm⟩
    · exact .inr ⟨hne hrest, behind, hrest⟩
  · rw [List.append_nil] at h
    exact .inr ⟨hne h, behind, h⟩

theorem Rotating.turn (h : Rotating jobs (job :: rest) schedule.slices)
    (hs : Serving hq jobs (job :: rest) schedule) (hd : (jobs.map (·.id)).Nodup)
    (ht : Turn quantum job units schedule unit slice) :
    Rotating jobs (requeue job slice.remaining rest) (record schedule slice).slices := by
  have hdistinct := hs.queue_distinct hd
  rw [List.map_cons, List.nodup_cons] at hdistinct
  rw [record_slices]
  refine ⟨h.others_turn ht, ?_⟩
  intro before last between hsplit hbetween first behind hqueue other ho hne
  rcases concat_eq_split hsplit with ⟨rfl, rfl, rfl⟩ | ⟨between, rfl, hslices⟩
  · -- The job has just had its turn, so everybody else who waits is before it.
    rcases split_of_requeue hdistinct.1 hqueue with ⟨-, rfl⟩ | ⟨hother, -⟩
    · rw [List.countP_nil]
      split
      · rfl
      · next hout =>
        refine (hs.turnsDue_eq_zero ho ?_).symm
        rw [List.map_cons, List.mem_cons, not_or]
        exact ⟨fun hid => hne (hid.trans ht.slice_job.symm), hout⟩
    · exact absurd ht.slice_job hother
  · have hlast : job.id ≠ last.job := fun hid =>
      hbetween slice (List.mem_append_right _ List.mem_cons_self) (ht.slice_job.trans hid)
    obtain ⟨behind, hrest⟩ := ((split_of_requeue hdistinct.1 hqueue).resolve_left
      fun hid => hlast hid.1.symm).2
    have hbefore : (job :: rest).map (·.id) = (job.id :: first) ++ last.job :: behind := by
      rw [List.map_cons, hrest, List.cons_append]
    have hcount := h.since before last between hslices
      (fun s hm => hbetween s (List.mem_append_left _ hm)) _ _ hbefore other ho hne
    rw [List.countP_append, List.countP_singleton, hcount, ht.slice_job]
    -- Of the other jobs only the head of the queue has had a turn, and it is no longer before.
    by_cases hid : other.id = job.id
    · have hout : job.id ∉ first := fun hm =>
        hdistinct.1 (hrest ▸ List.mem_append_left _ hm)
      simp [hid, hout, hs.turnsDue_eq_one ho hid hslices]
    · simp [hid, Ne.symm hid]

end Rotating

variable [Quantity T]

theorem exists_rotating {quantum : Nat} (hq : 0 < quantum) {pool : Pool T}
    (h : pool.check = .ok ()) :
    ∃ after, allocate quantum pool = .ok after ∧
      (∃ n, round quantum pool.jobs n = [] ∧
        after.schedule.slices.map (·.job) = rounds quantum pool.jobs n) ∧
      AtEach (OthersOnce pool.jobs) after.schedule.slices := by
  have hv := Pool.valid_of_check h
  obtain ⟨after, hok, -, -, hturning, hrotating⟩ := exists_allocate_of_invariant hq h
    (P := fun queue _ schedule => Serving hq pool.jobs queue schedule ∧
      Turning quantum pool.jobs queue schedule.slices ∧ Rotating pool.jobs queue schedule.slices)
    (fun ht ⟨hs, hturning, hrotating⟩ => ⟨hs.turn hv.jobs_distinct ht, hturning.turn ht,
      hrotating.turn hs hv.jobs_distinct ht⟩)
    ⟨serving_start hq hv, turning_start hv, rotating_start pool.jobs pool.freshJobs⟩
  exact ⟨after, hok, hturning.exists_rounds, hrotating.others⟩

/-- Round robin gives its turns round by round, in each round to the jobs that have work left, in
the order of the input. So the turns depend on the lengths, their order and the quantum only, and
between two turns of a job every other job with work left has exactly one. -/
theorem turns_go_round {quantum : Nat} (hq : 0 < quantum) (pool : Pool T)
    (valid : pool.check = .ok ()) :
    ∃ after, allocate quantum pool = .ok after ∧
      (∃ n, (∀ k, n ≤ k → round quantum pool.jobs k = []) ∧
        after.schedule.slices.map (·.job) = rounds quantum pool.jobs n) ∧
      (∀ other : Pool T, other.check = .ok () →
        (other.jobs.map fun job => (job.id, job.length)) =
          pool.jobs.map (fun job => (job.id, job.length)) →
        ∃ again, allocate quantum other = .ok again ∧
          again.schedule.slices.map (·.job) = after.schedule.slices.map (·.job)) ∧
      AtEach (OthersOnce pool.jobs) after.schedule.slices := by
  obtain ⟨after, hok, ⟨n, hn, hturns⟩, hothers⟩ := exists_rotating hq valid
  refine ⟨after, hok, ⟨n, fun k hk => round_eq_nil_of_le hn hk, hturns⟩, ?_, hothers⟩
  intro other hother hsame
  obtain ⟨again, hagain, ⟨m, hm, hturns'⟩, -⟩ := exists_rotating hq hother
  refine ⟨again, hagain, ?_⟩
  calc again.schedule.slices.map (·.job) = rounds quantum other.jobs m := hturns'
    _ = rounds quantum other.jobs (max m n) := (rounds_eq_of_le hm (Nat.le_max_left m n)).symm
    _ = rounds quantum pool.jobs (max m n) := rounds_congr hsame _
    _ = rounds quantum pool.jobs n := rounds_eq_of_le hn (Nat.le_max_right m n)
    _ = after.schedule.slices.map (·.job) := hturns.symm

/-- Jobs of three quanta, of one and of two, on one unit. -/
def threeLengths : Pool Binary64 where
  jobs := [⟨0, "long", 250, 0, none, 250⟩, ⟨1, "short", 40, 0, none, 40⟩,
    ⟨2, "middle", 120, 0, none, 120⟩]
  units := [⟨0, "only", Quantity.ofNat 100, 0⟩]

/-- The same work, with arrivals and a deadline, on two units. -/
def threeLengthsElsewhere : Pool Binary64 where
  jobs := [⟨0, "late", 250, Quantity.ofNat 9, none, 250⟩, ⟨1, "", 40, 0, none, 40⟩,
    ⟨2, "urgent", 120, 0, some (Quantity.ofNat 1), 120⟩]
  units := [⟨5, "slow", Quantity.ofNat 30, Quantity.ofNat 4⟩, ⟨3, "fast", Quantity.ofNat 500, 0⟩]

theorem turns_go_round_threeLengths :
    threeLengths.check = .ok () ∧ threeLengthsElsewhere.check = .ok () ∧
      ∃ after again, allocate 100 threeLengths = .ok after ∧
        allocate 100 threeLengthsElsewhere = .ok again ∧
        after.schedule.slices.map (·.job) = [0, 1, 2, 0, 2, 0] ∧
        again.schedule.slices.map (·.job) = [0, 1, 2, 0, 2, 0] ∧
        AtEach (OthersOnce threeLengths.jobs) after.schedule.slices := by
  have hcheck : threeLengths.check = .ok () := threeLengths.check_eq_ok_iff.mpr (by decide +kernel)
  have hother : threeLengthsElsewhere.check = .ok () :=
    threeLengthsElsewhere.check_eq_ok_iff.mpr (by decide +kernel)
  obtain ⟨after, hok, ⟨n, hn, hturns⟩, helsewhere, hothers⟩ :=
    turns_go_round (by decide : 0 < 100) threeLengths hcheck
  obtain ⟨again, hagain, hsame⟩ := helsewhere threeLengthsElsewhere hother rfl
  have hrounds : rounds 100 threeLengths.jobs n = rounds 100 threeLengths.jobs 3 := by
    rcases Nat.le_total n 3 with hle | hle
    · exact (rounds_eq_of_le (hn n (Nat.le_refl n)) hle).symm
    · exact rounds_eq_of_le rfl hle
  have hjobs : after.schedule.slices.map (·.job) = [0, 1, 2, 0, 2, 0] := hturns.trans hrounds
  exact ⟨hcheck, hother, after, again, hok, hagain, hjobs, hsame.trans hjobs, hothers⟩

end JobAllocation.RoundRobin
