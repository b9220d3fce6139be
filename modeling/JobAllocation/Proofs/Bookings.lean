import JobAllocation.Proofs.HonestSchedules
import JobAllocation.Proofs.RefusedCalls

/-!
# No unit is booked twice

The units keep their ready times from one call to the next, so what one call commits is out of the
way of all later ones. A call books its units one after the other: each booking begins when its unit
is free or later, and the unit is taken until its end. Bookings of this kind can be joined, over the
turns of one run as over the calls of a session.
-/
namespace JobAllocation

variable {T : Type}

/-- A stretch of time for which a unit is taken. -/
structure Booking (T : Type) where
  unit : UnitId
  start : T
  finish : T
  deriving DecidableEq

def Completion.booking (c : Completion T) : Booking T := ⟨c.unit, c.start, c.finish⟩

def Slice.booking (s : Slice T) : Booking T := ⟨s.unit, s.start, s.finish⟩

/-- What a call books, in the order in which it does: the slices of round robin, the completions of
the policies that do not preempt. -/
def Call.bookings (call : Call T) (schedule : Schedule T) : List (Booking T) :=
  match call with
  | roundRobin _ => schedule.slices.map Slice.booking
  | list _ | batch _ | hillClimbing _ => schedule.completions.map Completion.booking

theorem Call.bookings_of_not_preempts {call : Call T} (h : ¬ call.Preempts)
    (schedule : Schedule T) :
    call.bookings schedule = schedule.completions.map Completion.booking := by
  cases call with
  | roundRobin quantum => exact absurd ⟨quantum, rfl⟩ h
  | list _ | batch _ | hillClimbing _ => rfl

variable [Quantity T]

/-- The same unit, free when it was or later. -/
structure ExecutionUnit.Outlasts (before after : ExecutionUnit T) : Prop where
  id_eq : after.id = before.id
  name_eq : after.name = before.name
  speed_eq : after.speed = before.speed
  ready : after.ready = before.ready ∨ before.ready < after.ready

namespace ExecutionUnit.Outlasts

theorem refl (unit : ExecutionUnit T) : unit.Outlasts unit := ⟨rfl, rfl, rfl, .inl rfl⟩

theorem trans {a b c : ExecutionUnit T} (hab : a.Outlasts b) (hbc : b.Outlasts c) :
    a.Outlasts c where
  id_eq := hbc.id_eq.trans hab.id_eq
  name_eq := hbc.name_eq.trans hab.name_eq
  speed_eq := hbc.speed_eq.trans hab.speed_eq
  ready := by
    rcases hab.ready with hab | hab <;> rcases hbc.ready with hbc | hbc
    · exact .inl (hbc.trans hab)
    · exact .inr (hab ▸ hbc)
    · exact .inr (hbc ▸ hab)
    · exact .inr (Quantity.lt_trans hab hbc)

theorem advanceTo (unit : ExecutionUnit T) (time : T) : unit.Outlasts (unit.advanceTo time) where
  id_eq := unit.advanceTo_id time
  name_eq := unit.advanceTo_name time
  speed_eq := unit.advanceTo_speed time
  ready := by
    rw [advanceTo_ready]
    split
    · next h => exact .inr h
    · exact .inl rfl

end ExecutionUnit.Outlasts

/-- Bookings that can be made in turn, and the units after them. -/
inductive Books :
    List (ExecutionUnit T) → List (Booking T) → List (ExecutionUnit T) → Prop where
  | nil {units : List (ExecutionUnit T)} : Books units [] units
  | cons {units later : List (ExecutionUnit T)} {unit : ExecutionUnit T} {b : Booking T}
      {rest : List (Booking T)} (working : Working units) (unit_mem : unit ∈ units)
      (unit_eq : b.unit = unit.id) (free : unit.ready ≤ b.start) (forward : b.start ≤ b.finish)
      (tail : Books (advanceUnit units unit.id b.finish) rest later) :
      Books units (b :: rest) later

namespace Books

variable {units between later : List (ExecutionUnit T)} {bookings rest : List (Booking T)}

theorem append (h : Books units bookings between) (hrest : Books between rest later) :
    Books units (bookings ++ rest) later := by
  induction h with
  | nil => exact hrest
  | cons working unit_mem unit_eq free forward _ ih =>
    exact .cons working unit_mem unit_eq free forward (ih hrest)

theorem outlasts (h : Books units bookings later) :
    List.Forall₂ ExecutionUnit.Outlasts units later := by
  induction h with
  | nil => exact List.forall₂_same.mpr fun unit _ => .refl unit
  | cons _ _ _ _ _ _ ih =>
    refine (List.forall₂_map_left_iff.mp ih).imp fun before after h => ?_
    split at h
    · exact (ExecutionUnit.Outlasts.advanceTo before _).trans h
    · exact h

variable [LawfulQuantity T]

/-- Every booking begins when its unit is free or later. -/
theorem free (h : Books units bookings later) :
    ∀ b ∈ bookings, ∃ unit ∈ units, unit.id = b.unit ∧ unit.ready ≤ b.start := by
  induction h with
  | nil => simp
  | cons working unit_mem unit_eq free _ _ ih =>
    refine List.forall_mem_cons.mpr ⟨⟨_, unit_mem, unit_eq.symm, free⟩, fun c hc => ?_⟩
    obtain ⟨unit, hu, hid, hfree⟩ := ih c hc
    obtain ⟨before, hb, hbefore, hle, -⟩ := exists_le_of_mem_advanceUnit working hu
    exact ⟨before, hb, hbefore.trans hid, Quantity.le_trans hle hfree⟩

/-- Every booking ends after it begins, and its unit is not free before that. -/
theorem taken (h : Books units bookings later) :
    ∀ b ∈ bookings, b.start ≤ b.finish ∧
      ∃ unit ∈ later, unit.id = b.unit ∧ b.finish ≤ unit.ready := by
  induction h with
  | nil => simp
  | @cons units later unit b rest working unit_mem unit_eq free forward tail ih =>
    refine List.forall_mem_cons.mpr ⟨⟨forward, ?_⟩, ih⟩
    have hfinish : 0 ≤ b.finish := Quantity.le_trans (working.ready_nonneg unit unit_mem)
      (Quantity.le_trans free forward)
    have hmem : unit.advanceTo b.finish ∈ advanceUnit units unit.id b.finish :=
      List.mem_map.mpr ⟨unit, unit_mem, if_pos rfl⟩
    obtain ⟨-, -, -, -, hbusy⟩ := exists_le_of_mem_advanceUnit working hmem
    obtain ⟨after, ha, houtlasts⟩ := exists_of_mem_forall₂ tail.outlasts.flip hmem
    refine ⟨after, ha, ?_, ?_⟩
    · rw [houtlasts.id_eq, ExecutionUnit.advanceTo_id, unit_eq]
    · have hle := hbusy (unit.advanceTo_id _) hfinish
      rcases houtlasts.ready with heq | hlt
      · rw [heq]
        exact hle
      · exact Quantity.le_trans hle (Quantity.le_of_lt hlt)

/-- Of two bookings of a unit the second does not begin before the end of the first. -/
theorem pairwise (h : Books units bookings later) :
    bookings.Pairwise fun a b => a.unit = b.unit → a.finish ≤ b.start := by
  induction h with
  | nil => exact .nil
  | cons working unit_mem unit_eq free forward tail ih =>
    refine .cons (fun c hc hunit => ?_) ih
    obtain ⟨unit, hu, hid, hfree⟩ := tail.free c hc
    obtain ⟨-, -, -, -, hbusy⟩ := exists_le_of_mem_advanceUnit working hu
    have hready := working.ready_nonneg _ unit_mem
    have hfinish := Quantity.le_trans hready (Quantity.le_trans free forward)
    exact Quantity.le_trans (hbusy (hid.trans (hunit.symm.trans unit_eq)) hfinish) hfree

end Books

variable [LawfulQuantity T]

/-- A prompt plan books the units of its completions. -/
theorem Prompt.books {jobs : List (Job T)} {units : List (ExecutionUnit T)}
    {plan : List (Completion T)} (hp : Prompt jobs units plan) (hw : Working units)
    (ha : ∀ job ∈ jobs, 0 ≤ job.arrival) :
    Books units (plan.map Completion.booking) (unitsAfter plan units) := by
  induction hp with
  | nil => exact .nil
  | @cons units job unit c rest job_mem unit_mem job_eq unit_eq start_same finish_eq _ ih =>
    obtain ⟨-, hfree, hforward⟩ :=
      hw.times_of_prompt unit_mem (ha job job_mem) start_same job.length
    have hrest := ih (hw.advance _ _)
    rw [← unit_eq] at hrest
    rw [← finish_eq] at hforward
    exact .cons hw unit_mem unit_eq hfree hforward (unit_eq ▸ hrest)

theorem Commits.books {pool : Pool T} {run : Allocation T} (h : Commits pool run)
    (hv : pool.Valid) :
    Books pool.units (run.schedule.completions.map Completion.booking) run.pool.units := by
  rw [h.units_eq]
  exact h.prompt.books hv.working fun job hj => (hv.jobs_valid job hj).arrival_nonneg

namespace RoundRobin

theorem Turn.books {quantum : Nat} {job : Job T} {units : List (ExecutionUnit T)}
    {schedule : Schedule T} {unit : ExecutionUnit T} {slice : Slice T}
    (h : Turn quantum job units schedule unit slice) (ha : 0 ≤ job.arrival) :
    Books units [slice.booking] (advanceUnit units unit.id slice.finish) := by
  have hready := h.working.ready_nonneg unit h.unit_mem
  obtain ⟨-, hfree, hforward⟩ := h.working.times_of_prompt h.unit_mem ha
    (.refl (Quantity.nonneg_larger hready job.arrival)) (min quantum job.remaining)
  obtain rfl := h.slice_eq
  exact .cons h.working h.unit_mem rfl hfree hforward .nil

/-- Round robin books the units of its slices, turn by turn. -/
theorem exists_books {quantum : Nat} (hq : 0 < quantum) {pool : Pool T}
    (h : pool.check = .ok ()) :
    ∃ run, allocate quantum pool = .ok run ∧
      Books pool.units (run.schedule.slices.map Slice.booking) run.pool.units := by
  have hv := Pool.valid_of_check h
  obtain ⟨run, hok, -, -, hbooks⟩ := exists_allocate_of_invariant hq h
    (P := fun queue units schedule => (∀ job ∈ queue, 0 ≤ job.arrival) ∧
      Books pool.units (schedule.slices.map Slice.booking) units)
    (fun {job rest units schedule unit slice} ht ⟨ha, hbooks⟩ => by
      obtain ⟨hjob, hrest⟩ := List.forall_mem_cons.mp ha
      refine ⟨fun queued hm => ?_, ?_⟩
      · rcases mem_requeue hm with hm | ⟨-, rfl⟩
        · exact hrest queued hm
        · exact hjob
      · rw [record_slices, List.map_append, List.map_singleton]
        exact hbooks.append (ht.books hjob))
    ⟨hv.fresh_arrival_nonneg, .nil⟩
  exact ⟨run, hok, hbooks⟩

end RoundRobin

/-- Whatever a call allocates, it books its units in turn. -/
theorem Call.books {call : Call T} {pool : Pool T} {run : Allocation T}
    (h : call.allocate pool = .ok run) :
    Books pool.units (call.bookings run.schedule) run.pool.units := by
  obtain ⟨hcheck, hcall⟩ := check_and_feasible h
  rcases Classical.em call.Preempts with ⟨quantum, rfl⟩ | hpreempts
  · obtain ⟨_, hok, hbooks⟩ := RoundRobin.exists_books hcall hcheck
    obtain rfl := Except.ok.inj (h.symm.trans hok)
    exact hbooks
  · obtain ⟨_, hok, hcommits⟩ := exists_commits hcheck hcall hpreempts
    obtain rfl := Except.ok.inj (h.symm.trans hok)
    rw [bookings_of_not_preempts hpreempts]
    exact hcommits.books (Pool.valid_of_check hcheck)

/-- One call of a session, with the pool that it found and the pool that it left. -/
structure Visit (T : Type) where
  call : Call T
  before : Pool T
  outcome : Except (AllocationError T) (Schedule T)
  after : Pool T

namespace Visit

/-- What the call books, nothing if it fails. -/
def bookings (visit : Visit T) : List (Booking T) :=
  match visit.outcome with
  | .ok schedule => visit.call.bookings schedule
  | .error _ => []

/-- What the call makes of the ready times. -/
structure Sound (visit : Visit T) : Prop where
  outlasts : List.Forall₂ ExecutionUnit.Outlasts visit.before.units visit.after.units
  unchanged : ∀ e, visit.outcome = .error e → visit.after = visit.before
  taken : ∀ b ∈ visit.bookings, b.start ≤ b.finish ∧
    ∃ unit ∈ visit.after.units, unit.id = b.unit ∧ b.finish ≤ unit.ready

end Visit

/-- The call, made in place on a pool. -/
def Call.visit (call : Call T) (pool : Pool T) : Visit T :=
  let (outcome, after) := call.perform.on pool
  { call, before := pool, outcome, after }

/-- Calls one after the other on the same pool, those that fail among them. -/
def session : List (Call T) → Pool T → List (Visit T)
  | [], _ => []
  | call :: rest, pool =>
    let visit := call.visit pool
    visit :: session rest visit.after

/-- A call that fails books nothing and leaves the units as they were. -/
theorem Call.books_visit (call : Call T) (pool : Pool T) :
    Books pool.units (call.visit pool).bookings (call.visit pool).after.units := by
  simp only [visit, on_perform, apply]
  cases h : call.allocate pool with
  | error e => exact .nil
  | ok run => exact books h

theorem Call.sound_visit (call : Call T) (pool : Pool T) : (call.visit pool).Sound where
  outlasts := (call.books_visit pool).outlasts
  unchanged := (call.on_perform_allOrNothing pool).unchanged
  taken := (call.books_visit pool).taken

/-- The bookings of a session are those of its calls joined. -/
theorem exists_books_session (calls : List (Call T)) (pool : Pool T) :
    ∃ later, Books pool.units ((session calls pool).flatMap Visit.bookings) later := by
  induction calls generalizing pool with
  | nil => exact ⟨pool.units, .nil⟩
  | cons call rest ih =>
    obtain ⟨later, hrest⟩ := ih (call.visit pool).after
    exact ⟨later, (call.books_visit pool).append hrest⟩

theorem sound_of_mem_session {calls : List (Call T)} {pool : Pool T} {visit : Visit T}
    (h : visit ∈ session calls pool) : visit.Sound := by
  induction calls generalizing pool with
  | nil => simp [session] at h
  | cons call rest ih =>
    rcases List.mem_cons.mp h with rfl | h
    · exact call.sound_visit pool
    · exact ih h

/-- However often and by whatever policies a pool is allocated, ready times only go up, a call that
fails changes nothing, and no unit is booked twice: of two bookings of a unit, made by one call or
by two, the second does not begin before the end of the first, and each ends by the ready time that
its call leaves. -/
theorem no_double_booking (calls : List (Call Binary64)) (pool : Pool Binary64) :
    (∀ visit ∈ session calls pool, visit.Sound) ∧
      ((session calls pool).flatMap Visit.bookings).Pairwise
        fun a b => a.unit = b.unit → a.finish ≤ b.start := by
  obtain ⟨later, hbooks⟩ := exists_books_session calls pool
  exact ⟨fun visit => sound_of_mem_session, hbooks.pairwise⟩

end JobAllocation
