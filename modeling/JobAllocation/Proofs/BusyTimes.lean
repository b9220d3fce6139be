import JobAllocation.Proofs.Bookings
import JobAllocation.Proofs.SingleUnit
import Mathlib.Algebra.Order.Field.Basic

/-!
# How long units are busy

What a call books can be summed by units or by jobs, and the sums agree. Bookings of one unit that
follow one another fit between its first and the last finish of all, so no unit is busy for longer
than the schedule takes.
-/
namespace JobAllocation

/-- The sum of the sums of all groups is the sum of the list. -/
theorem sum_map_sum_filter {A K M : Type} [DecidableEq K] [AddCommMonoid M] (key : A → K)
    (value : A → M) {keys : List K} (hn : keys.Nodup) {xs : List A}
    (hk : ∀ x ∈ xs, key x ∈ keys) :
    (keys.map fun k => ((xs.filter (key · == k)).map value).sum).sum = (xs.map value).sum := by
  induction xs with
  | nil => simp
  | cons x xs ih =>
    obtain ⟨hx, hxs⟩ := List.forall_mem_cons.mp hk
    have hgroup (k : K) : (((x :: xs).filter (key · == k)).map value).sum =
        (if k = key x then value x else 0) + ((xs.filter (key · == k)).map value).sum := by
      by_cases h : key x = k
      · simp [h]
      · simp [h, Ne.symm h]
    have hown : (keys.map fun k => if k = key x then value x else 0).sum = value x := by
      rw [List.sum_map_eq_nsmul_single (key x) _ fun k hne _ => if_neg hne, if_pos rfl,
        List.count_eq_one_of_mem hn hx, one_nsmul]
    simp only [hgroup]
    rw [List.sum_map_add, hown, ih hxs, List.map_cons, List.sum_cons]

namespace Exact

theorem total_map_eq {A : Type} {f : A → Exact} {value : A → Rat} {xs : List A}
    (h : ∀ a ∈ xs, f a = rational (value a)) :
    Quantity.total (xs.map f) = rational (xs.map value).sum := by
  rw [← total_map_rational, List.map_map]
  exact congrArg Quantity.total (List.map_congr_left h)

/-- The sum of a list is its sum on top of zero. -/
theorem sum_eq_total (xs : List Exact) : Quantity.sum xs = Quantity.total xs := by
  cases xs with
  | nil => rfl
  | cons x xs =>
    have hzero : (0 : Exact) + x = x := by
      cases x with
      | rational q => exact congrArg rational (zero_add q)
      | never => rfl
    rw [Quantity.sum, Quantity.total, List.foldl_cons, hzero]

/-- A part of a whole, neither nothing nor more than all of it. -/
def IsShare (x : Exact) : Prop := 0 < x ∧ x ≤ rational 1

theorem zero_lt_rational_iff {x : Rat} : (0 : Exact) < rational x ↔ 0 < x := rational_lt_iff

theorem isShare_rational_iff {x : Rat} : IsShare (rational x) ↔ 0 < x ∧ x ≤ 1 := by
  rw [IsShare, zero_lt_rational_iff, rational_le_iff]

/-- The mean of shares is a share. -/
theorem isShare_mean {qs : List Rat} (hne : qs ≠ []) (hq : ∀ q ∈ qs, 0 < q ∧ q ≤ 1) :
    IsShare (Metrics.mean (qs.map rational)) := by
  have hlength : (0 : Rat) < qs.length := Nat.cast_pos.mpr (List.length_pos_iff.mpr hne)
  have hmean : Metrics.mean (qs.map rational) = rational (qs.sum / qs.length) := by
    rw [Metrics.mean, if_neg (by simpa using hne), sum_eq_total, total_map_rational,
      List.length_map]
    rfl
  have hle : qs.sum ≤ qs.length := by
    simpa using List.sum_le_card_nsmul qs 1 fun q hm => (hq q hm).2
  rw [hmean, isShare_rational_iff]
  exact ⟨div_pos (List.sum_pos qs (fun q hm => (hq q hm).1) hne) hlength,
    (div_le_one hlength).mpr hle⟩

end Exact

namespace Schedule

variable {T : Type} [Quantity T] (schedule : Schedule T)

theorem nodup_unitsUsed : schedule.unitsUsed.Nodup :=
  (List.mergeSort_perm _ _).nodup_iff.mpr (nodup_eraseDups _)

theorem mem_unitsUsed_iff (unit : UnitId) :
    unit ∈ schedule.unitsUsed ↔ unit ∈ schedule.occupied.map (·.1) := by
  rw [unitsUsed, List.mem_mergeSort, List.mem_eraseDups]

end Schedule

namespace Booking

def duration {T : Type} [Quantity T] (b : Booking T) : T := b.finish - b.start

/-- From a rational time to a later one. -/
structure Timed (b : Booking Exact) : Prop where
  start_eq : b.start = .rational b.start.value
  finish_eq : b.finish = .rational b.finish.value
  nonneg : 0 ≤ b.start.value
  lasts : b.start.value < b.finish.value

/-- The duration as a number. -/
def length (b : Booking Exact) : Rat := b.finish.value - b.start.value

variable {b : Booking Exact}

/-- What runs some work on a unit takes time. -/
theorem timed_of_work {start : Rat} (hs : b.start = .rational start) (h0 : 0 ≤ start) {n : Nat}
    (hn : 0 < n) {unit : ExecutionUnit Exact} (hu : unit.Valid)
    (hf : b.finish = b.start + Quantity.ofNat n / unit.speed) : b.Timed := by
  have hspeed := Exact.eq_rational_of_isFinite hu.speed_finite
  have hpos := Exact.value_pos hspeed hu.speed_pos
  have hfinish : b.finish = .rational (start + n / unit.speed.value) := by
    rw [hf, hs, hspeed]
    rfl
  have hlasts : start < start + n / unit.speed.value :=
    lt_add_of_pos_right start (div_pos (Nat.cast_pos.mpr hn) hpos)
  constructor
  · rw [hs]
    rfl
  · rw [hfinish]
    rfl
  · rw [hs]
    exact h0
  · rw [hs, hfinish]
    exact hlasts

namespace Timed

theorem duration_eq (h : b.Timed) : b.duration = .rational b.length := by
  rw [duration, h.start_eq, h.finish_eq]
  rfl

theorem length_pos (h : b.Timed) : 0 < b.length := sub_pos.mpr h.lasts

theorem finish_pos (h : b.Timed) : 0 < b.finish.value := h.nonneg.trans_lt h.lasts

end Timed

variable {bookings : List (Booking Exact)}

/-- Bookings that follow one another between two times take no longer than there is between
them. -/
theorem sum_length_le (hp : bookings.Pairwise fun a b => a.finish ≤ b.start)
    (ht : ∀ b ∈ bookings, b.Timed) {low high : Rat} (hle : low ≤ high)
    (hlow : ∀ b ∈ bookings, low ≤ b.start.value)
    (hhigh : ∀ b ∈ bookings, b.finish.value ≤ high) : (bookings.map length).sum ≤ high - low := by
  induction bookings generalizing low with
  | nil => simpa using hle
  | cons b rest ih =>
    obtain ⟨hb, hrest⟩ := List.pairwise_cons.mp hp
    obtain ⟨htb, htrest⟩ := List.forall_mem_cons.mp ht
    have hafter : ∀ c ∈ rest, b.finish.value ≤ c.start.value := fun c hc =>
      Exact.rational_le_iff.mp (htb.finish_eq ▸ (htrest c hc).start_eq ▸ hb c hc)
    have hlater := ih hrest htrest (hhigh b List.mem_cons_self) hafter
      fun c hc => hhigh c (List.mem_cons_of_mem _ hc)
    have hfirst := hlow b List.mem_cons_self
    rw [List.map_cons, List.sum_cons, length]
    linarith

end Booking

/-- The busy times of the schedule are the durations of the bookings. -/
structure Schedule.Keeps (schedule : Schedule Exact) (bookings : List (Booking Exact)) :
    Prop where
  occupied_eq : schedule.occupied = bookings.map fun b => (b.unit, b.duration)
  timed : ∀ b ∈ bookings, b.Timed

namespace Schedule.Keeps

variable {schedule : Schedule Exact} {bookings : List (Booking Exact)}

theorem mem_unitsUsed_iff (h : schedule.Keeps bookings) (unit : UnitId) :
    unit ∈ schedule.unitsUsed ↔ ∃ b ∈ bookings, b.unit = unit := by
  rw [Schedule.mem_unitsUsed_iff, h.occupied_eq, List.map_map, List.mem_map]
  rfl

theorem busyTime_eq (h : schedule.Keeps bookings) (unit : UnitId) :
    schedule.busyTime unit =
      .rational ((bookings.filter (·.unit == unit)).map Booking.length).sum := by
  rw [busyTime, h.occupied_eq, List.filter_map, List.map_map]
  exact Exact.total_map_eq fun b hb => (h.timed b (List.mem_of_mem_filter hb)).duration_eq

theorem total_busyTimes (h : schedule.Keeps bookings) :
    Quantity.total (schedule.busyTimes.map (·.2)) =
      .rational (bookings.map Booking.length).sum := by
  have hused : ∀ b ∈ bookings, b.unit ∈ schedule.unitsUsed :=
    fun b hb => (h.mem_unitsUsed_iff b.unit).mpr ⟨b, hb, rfl⟩
  rw [busyTimes, List.map_map, ← sum_map_sum_filter _ Booking.length schedule.nodup_unitsUsed hused]
  exact Exact.total_map_eq fun unit _ => h.busyTime_eq unit

section Shares

variable {makespan : Rat} (hm : ∀ b ∈ bookings, b.finish ≤ .rational makespan)
include hm

theorem makespan_pos (h : schedule.Keeps bookings) (hne : bookings ≠ []) : 0 < makespan := by
  obtain ⟨b, hb⟩ := List.exists_mem_of_ne_nil bookings hne
  have htimed := h.timed b hb
  exact htimed.finish_pos.trans_le (Exact.rational_le_iff.mp (htimed.finish_eq ▸ hm b hb))

/-- Bookings of a unit that follow one another keep it busy for no longer than the makespan. -/
theorem busyTime_bounds (h : schedule.Keeps bookings)
    (hp : bookings.Pairwise fun a b => a.unit = b.unit → a.finish ≤ b.start) {unit : UnitId}
    (hu : unit ∈ schedule.unitsUsed) :
    0 < (schedule.busyTime unit).value ∧ (schedule.busyTime unit).value ≤ makespan := by
  have hown : ∀ b ∈ bookings.filter (·.unit == unit), b.Timed ∧ b.finish.value ≤ makespan :=
    fun b hb => by
      have hmem := List.mem_of_mem_filter hb
      have htimed := h.timed b hmem
      exact ⟨htimed, Exact.rational_le_iff.mp (htimed.finish_eq ▸ hm b hmem)⟩
  obtain ⟨first, hfirst, hunit⟩ := (h.mem_unitsUsed_iff unit).mp hu
  have hmem : first ∈ bookings.filter (·.unit == unit) :=
    List.mem_filter.mpr ⟨hfirst, beq_iff_eq.mpr hunit⟩
  rw [h.busyTime_eq, Exact.value]
  constructor
  · refine List.sum_pos _ (fun q hq => ?_) (List.ne_nil_of_mem (List.mem_map_of_mem hmem))
    obtain ⟨b, hb, rfl⟩ := List.mem_map.mp hq
    exact (hown b hb).1.length_pos
  · have hordered : (bookings.filter (·.unit == unit)).Pairwise fun a b => a.finish ≤ b.start := by
      refine (hp.filter _).imp_of_mem fun ha hb hle => hle ?_
      exact (eq_of_beq (List.mem_filter.mp ha).2).trans (eq_of_beq (List.mem_filter.mp hb).2).symm
    simpa using Booking.sum_length_le hordered (fun b hb => (hown b hb).1)
      (h.makespan_pos hm (List.ne_nil_of_mem hfirst)).le (fun b hb => (hown b hb).1.nonneg)
      fun b hb => (hown b hb).2

/-- Each used unit has the quotient of its busy time and the makespan. -/
theorem utilizations_eq (h : schedule.Keeps bookings) (hne : bookings ≠ [])
    (hmakespan : schedule.makespan = .rational makespan) :
    schedule.utilizations = schedule.unitsUsed.map fun unit =>
      (unit, .rational ((schedule.busyTime unit).value / makespan)) := by
  have hpos := h.makespan_pos hm hne
  have hsome : ¬ schedule.makespan ≤ 0 := by
    rw [hmakespan]
    exact fun hle => hpos.not_ge (Exact.rational_le_iff.mp hle)
  rw [utilizations, if_neg hsome, busyTimes, List.map_map, hmakespan]
  refine List.map_congr_left fun unit _ => ?_
  rw [Function.comp_apply, h.busyTime_eq]
  rfl

end Shares

end Schedule.Keeps
end JobAllocation
