import JobAllocation.Dispatch
import JobAllocation.Proofs.Binary64Times
import JobAllocation.Proofs.ExactTimes
import JobAllocation.Proofs.WorkingUnits
import Mathlib.Data.List.Nodup

/-!
# A choice does not depend on where its candidates stand

A scan keeps the first of the candidates that nothing is preferred to. Where the preference decides
between any two candidates there is only one of these, in whatever order they are listed. Scores,
finish times and ready times can tie, but rules, offers and units then go by number, and numbers do
not.
-/
namespace JobAllocation

namespace Selection

variable {α : Type}

/-- A preference that decides between any two of the candidates. -/
structure Decides (prefers : α → α → Bool) (candidates : List α) : Prop where
  irrefl : ∀ a, prefers a a = false
  trans : ∀ a b c, prefers a b = true → prefers b c = true → prefers a c = true
  total : ∀ a ∈ candidates, ∀ b ∈ candidates, a = b ∨ prefers a b = true ∨ prefers b a = true

namespace Decides

variable {prefers : α → α → Bool} {candidates others : List α} {a b : α}

theorem asymm (h : Decides prefers candidates) (hab : prefers a b = true) :
    prefers b a = false := by
  by_contra hba
  have haa := h.trans a b a hab (by simpa using hba)
  rw [h.irrefl] at haa
  cases haa

/-- What is chosen is preferred to every other candidate. -/
theorem eq_or_prefers (h : Decides prefers candidates) (ha : best? prefers candidates = some a) :
    ∀ b ∈ candidates, a = b ∨ prefers a b = true := by
  refine best?_le (fun a b => a = b ∨ prefers a b = true) ?_ ?_ ?_ ?_ ha
  · exact fun _ _ => .inl rfl
  · rintro a b c (rfl | hab) (rfl | hbc)
    · exact .inl rfl
    · exact .inr hbc
    · exact .inr hab
    · exact .inr (h.trans a b c hab hbc)
  · exact fun _ _ _ _ hp => .inr hp
  · intro a ha b hb hp
    rcases h.total a ha b hb with heq | hab | hba
    · exact .inl heq
    · exact .inr hab
    · simp [hp] at hba

theorem of_perm (h : Decides prefers candidates) (hp : candidates.Perm others) :
    Decides prefers others where
  irrefl := h.irrefl
  trans := h.trans
  total a ha b hb := h.total a (hp.symm.subset ha) b (hp.symm.subset hb)

/-- The same candidate is chosen, in whatever order they are listed. -/
theorem best?_eq_of_perm (h : Decides prefers candidates) (hp : candidates.Perm others) :
    best? prefers candidates = best? prefers others := by
  cases ha : best? prefers candidates with
  | none =>
    obtain rfl := best?_eq_none_iff.mp ha
    obtain rfl := hp.nil_eq
    rfl
  | some a =>
    cases hb : best? prefers others with
    | none =>
      obtain rfl := best?_eq_none_iff.mp hb
      rw [hp.eq_nil] at ha
      cases ha
    | some b =>
      -- Each would be preferred to the other.
      rcases h.eq_or_prefers ha b (hp.symm.subset (mem_of_best? hb)) with rfl | hab
      · rfl
      · rcases (h.of_perm hp).eq_or_prefers hb a (hp.subset (mem_of_best? ha)) with rfl | hba
        · rfl
        · rw [h.asymm hab] at hba
          cases hba

end Decides
end Selection

/-- The order of scores is total, and two times that agree are one unless they are zero. -/
class OrderedQuantity (T : Type) [Quantity T] : Prop where
  transCmp : Std.TransCmp (Quantity.totalOrder : T → T → Ordering)
  eq_of_same : ∀ {x y : T}, Quantity.Same x y → 0 < x → x = y

attribute [instance] OrderedQuantity.transCmp

theorem Exact.isLE_totalOrder_iff {x y : Exact} :
    (Quantity.totalOrder x y).isLE = true ↔ x ≤ y := by
  change (if x = y then Ordering.eq else if x < y then .lt else .gt).isLE = true ↔ _
  have hrefl (x : Exact) : x ≤ x := (le_total x x).elim id id
  split_ifs with heq hlt
  · simp [heq, hrefl]
  · simp [Quantity.le_of_lt hlt]
  · simp only [Ordering.isLE_gt, Bool.false_eq_true, false_iff]
    intro hle
    refine hlt ((Quantity.lt_iff x y).mpr ⟨hle, fun hge => heq (eq_of_same ⟨hle, hge⟩)⟩)

instance : OrderedQuantity Exact where
  transCmp :=
    { eq_swap := by
        intro x y
        change (if x = y then Ordering.eq else if x < y then .lt else .gt) =
          (if y = x then Ordering.eq else if y < x then .lt else .gt).swap
        by_cases heq : x = y
        · simp [heq]
        · by_cases hlt : x < y
          · have hgt : ¬ y < x := fun h => Quantity.lt_irrefl x (Quantity.lt_trans hlt h)
            simp [heq, Ne.symm heq, hlt, hgt]
          · have hle : ¬ x ≤ y := fun h => hlt
              ((Quantity.lt_iff x y).mpr ⟨h, fun hge => heq (Exact.eq_of_same ⟨h, hge⟩)⟩)
            have hgt : y < x := (Quantity.lt_iff y x).mpr
              ⟨(Exact.le_total x y).resolve_left hle, hle⟩
            simp [heq, Ne.symm heq, hlt, hgt]
      isLE_trans := by
        intro x y z
        rw [Exact.isLE_totalOrder_iff, Exact.isLE_totalOrder_iff, Exact.isLE_totalOrder_iff]
        exact Quantity.le_trans }
  eq_of_same h _ := Exact.eq_of_same h

theorem Binary64.eq_of_same {x y : Binary64} (h : Quantity.Same x y) (hx : 0 < x) : x = y := by
  have hrank : x.rank = y.rank := Int.le_antisymm (le_iff.mp h.1).2.2 (le_iff.mp h.2).2.2
  have hpos : 0 < x.rank := (lt_iff.mp hx).2.2
  have hy : y.isUndefined = false := (le_iff.mp h.1).2.1
  have hlimit := limit_pos
  cases x with
  | undefined s => simp [rank] at hpos
  | infinite s =>
    cases y with
    | undefined t => simp [isUndefined] at hy
    | infinite t => cases s <;> cases t <;> simp [rank] at hrank hpos ⊢ <;> omega
    | finite t m hm =>
      have := hm.2
      cases s <;> cases t <;> simp [rank] at hrank hpos <;> omega
  | finite s n hn =>
    have := hn.2
    cases y with
    | undefined t => simp [isUndefined] at hy
    | infinite t => cases s <;> cases t <;> simp [rank] at hrank hpos <;> omega
    | finite t m hm => cases s <;> cases t <;> simp [rank] at hrank hpos ⊢ <;> omega

instance : OrderedQuantity Binary64 where
  transCmp := inferInstanceAs (Std.TransCmp (compareOn Binary64.place))
  eq_of_same := Binary64.eq_of_same

namespace Ranking

variable {T : Type} [Quantity T]

theorem compare_cons (score : Job T → T) (ranking : Ranking T) :
    compare (score :: ranking) =
      compareLex (fun a b => Quantity.totalOrder (score a) (score b)) ranking.compare := rfl

instance [OrderedQuantity T] (ranking : Ranking T) : Std.TransCmp ranking.compare := by
  induction ranking with
  | nil => exact inferInstanceAs (Std.TransCmp (compareOn fun job : Job T => job.id))
  | cons score ranking ih =>
    have hscore : Std.TransCmp fun a b => Quantity.totalOrder (score a) (score b) :=
      { eq_swap := Std.OrientedCmp.eq_swap
        isLE_trans := Std.TransCmp.isLE_trans }
    rw [compare_cons]
    infer_instance

/-- Jobs that tie on every rule have one number. -/
theorem id_eq_of_compare_eq {ranking : Ranking T} {a b : Job T} (h : ranking.compare a b = .eq) :
    a.id = b.id := by
  induction ranking with
  | nil => exact Nat.compare_eq_eq.mp h
  | cons score ranking ih =>
    rw [compare_cons, compareLex, Ordering.then_eq_eq] at h
    exact ih h.2

theorem decides [OrderedQuantity T] (ranking : Ranking T) {jobs : List (Job T)}
    (hd : (jobs.map (·.id)).Nodup) : Selection.Decides ranking.precedes jobs where
  irrefl a := by simp [precedes, Std.ReflCmp.compare_self]
  trans a b c hab hbc := by
    rw [precedes, beq_iff_eq] at hab hbc ⊢
    exact Std.TransCmp.lt_trans hab hbc
  total a ha b hb := by
    rw [precedes, precedes, beq_iff_eq, beq_iff_eq]
    cases h : ranking.compare a b with
    | lt => exact .inr (.inl rfl)
    | eq => exact .inl (List.inj_on_of_nodup_map hd ha hb (id_eq_of_compare_eq h))
    | gt => exact .inr (.inr (Std.OrientedCmp.lt_of_gt h))

end Ranking

/-- The usual rules do not look at the clock. -/
theorem RuleChain.rankingAt_engine {T : Type} [Quantity T] (chain : RuleChain) (now : T) :
    chain.engine.rankingAt now = chain.ranking := by
  rw [engine, RuleEngine.rankingAt, List.map_map, ranking]
  rfl

section Times

variable {T : Type} [Quantity T] [LawfulQuantity T]

/-- A preference for the earlier time and the lower number decides between things that have distinct
numbers. -/
theorem decides_of_earlier {α : Type} {time : α → T} {number : α → Nat} {prefers : α → α → Bool}
    (hp : ∀ a b, prefers a b =
      (decide (time a < time b) ||
        (decide (Quantity.Same (time a) (time b)) && decide (number a < number b))))
    {xs : List α} (hd : (xs.map number).Nodup) (ht : ∀ a ∈ xs, 0 ≤ time a) :
    Selection.Decides prefers xs := by
  have hiff (a b : α) : prefers a b = true ↔
      time a < time b ∨ Quantity.Same (time a) (time b) ∧ number a < number b := by
    rw [hp]
    simp
  refine ⟨fun a => ?_, fun a b c => ?_, fun a ha b hb => ?_⟩
  · rw [← Bool.not_eq_true, hiff]
    rintro (hlt | ⟨-, hlt⟩)
    · exact Quantity.lt_irrefl _ hlt
    · exact Nat.lt_irrefl _ hlt
  · rw [hiff, hiff, hiff]
    rintro (hab | ⟨hab, hn⟩) (hbc | ⟨hbc, hm⟩)
    · exact .inl (Quantity.lt_trans hab hbc)
    · exact .inl (Quantity.lt_of_lt_of_le hab hbc.1)
    · exact .inl (Quantity.lt_of_le_of_lt hab.1 hbc)
    · exact .inr ⟨hab.trans hbc, Nat.lt_trans hn hm⟩
  · rw [hiff, hiff]
    by_cases hab : time a < time b
    · exact .inr (.inl (.inl hab))
    · by_cases hba : time b < time a
      · exact .inr (.inr (.inl hba))
      · have hsame : Quantity.Same (time a) (time b) :=
          ⟨Quantity.le_of_not_lt (ht b hb) (ht a ha) hba,
            Quantity.le_of_not_lt (ht a ha) (ht b hb) hab⟩
        rcases Nat.lt_trichotomy (number a) (number b) with hn | hn | hn
        · exact .inr (.inl (.inr ⟨hsame, hn⟩))
        · exact .inl (List.inj_on_of_nodup_map hd ha hb hn)
        · exact .inr (.inr (.inr ⟨hsame.symm, hn⟩))

/-- The unit that is free first is the same one wherever it stands. -/
theorem firstFree?_eq_of_perm {units others : List (ExecutionUnit T)} (hw : Working units)
    (hp : units.Perm others) : firstFree? units = firstFree? others :=
  (decides_of_earlier (fun _ _ => rfl) hw.distinct hw.ready_nonneg).best?_eq_of_perm hp

/-- Of the offers of some units for one job there is a best one, wherever the units stand. -/
theorem decides_offers {units : List (ExecutionUnit T)} (hw : Working units) (job : Job T)
    (notBefore : T) :
    Selection.Decides Offer.beats (units.map (Offer.on job notBefore)) := by
  have hdistinct : ((units.map (Offer.on job notBefore)).map (·.unit.id)).Nodup := by
    rw [List.map_map]
    exact hw.distinct
  refine decides_of_earlier (fun _ _ => rfl) hdistinct fun offer ho => ?_
  obtain ⟨unit, hu, rfl⟩ := List.mem_map.mp ho
  exact Quantity.nonneg_add (Quantity.nonneg_larger (hw.ready_nonneg unit hu) notBefore)
    (hw.work_nonneg hu job.length)

theorem earliestOffer_eq_of_perm {units others : List (ExecutionUnit T)} (hw : Working units)
    (hp : units.Perm others) (job : Job T) (notBefore : T) :
    earliestOffer job units notBefore = earliestOffer job others notBefore := by
  have hunits := mapM_eq_ok fun unit hu => Offer.make_eq (hw.speed_pos unit hu) job notBefore
  have hothers := mapM_eq_ok fun unit (hu : unit ∈ others) =>
    Offer.make_eq (hw.speed_pos unit (hp.symm.subset hu)) job notBefore
  simp only [earliestOffer, hunits, hothers, bind, Except.bind,
    (decides_offers hw job notBefore).best?_eq_of_perm (hp.map _)]

/-- The offer that is taken is as good as that of any unit: it ends earlier, or as early on a unit
with no higher number. -/
theorem Offer.eq_or_beats_of_earliestOffer {units : List (ExecutionUnit T)} (hw : Working units)
    {job : Job T} {notBefore : T} {offer : Offer T}
    (h : earliestOffer job units notBefore = .ok offer) :
    ∀ unit ∈ units, offer = Offer.on job notBefore unit ∨
      Offer.beats offer (Offer.on job notBefore unit) = true := by
  have hunits := mapM_eq_ok fun unit hu => Offer.make_eq (hw.speed_pos unit hu) job notBefore
  intro unit hu
  refine (decides_offers hw job notBefore).eq_or_prefers ?_ _ (List.mem_map_of_mem hu)
  simp only [earliestOffer, hunits, bind, Except.bind] at h
  split at h
  · next best hbest =>
    cases h
    exact hbest
  · cases h

end Times
end JobAllocation
