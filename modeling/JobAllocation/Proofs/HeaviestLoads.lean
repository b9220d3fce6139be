import JobAllocation.LocalSearch.Neighbour
import JobAllocation.Proofs.Times
import Mathlib.Data.List.Nodup

/-!
# The three heaviest loads decide a move

Loads are put in one by one, heaviest first, and cutting the list to three after each of them is the
same as cutting it once at the end. Among three loads there is always one that a move leaves alone,
and it is the heaviest of those, so the makespan after a move is the largest entry of the whole list
with two of them replaced.
-/
namespace JobAllocation.LocalSearch

variable {T : Type} [Quantity T]

/-- All entries, heaviest first. -/
def ranked (entries : List (T × Nat)) : List (T × Nat) :=
  entries.foldl (fun held entry => insertHeavy entry held) []

theorem insertHeavy_perm (entry : T × Nat) (held : List (T × Nat)) :
    (insertHeavy entry held).Perm (entry :: held) := by
  fun_induction insertHeavy entry held with
  | case1 => exact .refl _
  | case2 entry first rest _ ih => exact ih.cons entry
  | case3 entry first rest _ ih => exact (ih.cons first).trans (.swap entry first rest)

/-- What is cut off before an entry is put in would have been cut off after it too. -/
theorem take_insertHeavy_take (entry : T × Nat) (held : List (T × Nat)) (k : Nat) :
    (insertHeavy entry (held.take k)).take k = (insertHeavy entry held).take k := by
  induction held generalizing entry k with
  | nil => rw [List.take_nil]
  | cons first rest ih =>
    cases k with
    | zero => rw [List.take_zero, List.take_zero]
    | succ k =>
      rw [List.take_succ_cons, insertHeavy, insertHeavy]
      split
      · rw [List.take_succ_cons, List.take_succ_cons, ih]
      · rw [List.take_succ_cons, List.take_succ_cons, ih]

theorem topThree_eq (loads : List T) : topThree loads = (ranked loads.zipIdx).take 3 := by
  have key (entries held : List (T × Nat)) :
      entries.foldl (fun top entry => (insertHeavy entry top).take 3) (held.take 3) =
        (entries.foldl (fun held entry => insertHeavy entry held) held).take 3 := by
    induction entries generalizing held with
    | nil => rfl
    | cons entry rest ih => rw [List.foldl_cons, take_insertHeavy_take, ih, List.foldl_cons]
  exact key loads.zipIdx []

theorem ranked_perm (entries : List (T × Nat)) : (ranked entries).Perm entries := by
  have key (held : List (T × Nat)) :
      (entries.foldl (fun held entry => insertHeavy entry held) held).Perm (held ++ entries) := by
    induction entries generalizing held with
    | nil => rw [List.append_nil]; exact .refl _
    | cons entry rest ih =>
      refine (ih _).trans (((insertHeavy_perm entry held).append_right rest).trans ?_)
      exact List.perm_middle.symm
  exact key []

theorem nodup_ranked (loads : List T) : ((ranked loads.zipIdx).map (·.2)).Nodup := by
  refine ((ranked_perm loads.zipIdx).map _).nodup_iff.mpr ?_
  rw [List.zipIdx_map_snd]
  exact List.nodup_range'

theorem mem_ranked_iff {loads : List T} {x : T} {i : Nat} :
    (x, i) ∈ ranked loads.zipIdx ↔ loads[i]? = some x :=
  (ranked_perm _).mem_iff.trans List.mem_zipIdx_iff_getElem?

section Order

variable [LawfulQuantity T]

/-- Heaviest first. -/
def Ranked (entries : List (T × Nat)) : Prop := entries.Pairwise fun a b => b.1 ≤ a.1

theorem Ranked.insertHeavy {entry : T × Nat} {held : List (T × Nat)} (h : Ranked held)
    (he : 0 ≤ entry.1) (hnonneg : ∀ e ∈ held, 0 ≤ e.1) : Ranked (insertHeavy entry held) := by
  induction held generalizing entry with
  | nil => exact List.pairwise_singleton _ _
  | cons first rest ih =>
    obtain ⟨hfirst, hrest⟩ := List.pairwise_cons.mp h
    have hf := hnonneg first List.mem_cons_self
    have hr : ∀ e ∈ rest, 0 ≤ e.1 := fun e hm => hnonneg e (List.mem_cons_of_mem _ hm)
    rw [LocalSearch.insertHeavy]
    split
    · next hlt =>
      refine List.pairwise_cons.mpr ⟨fun e hm => ?_, ih hrest hf hr⟩
      rcases List.mem_cons.mp ((insertHeavy_perm first rest).subset hm) with rfl | hm
      · exact Quantity.le_of_lt hlt
      · exact Quantity.le_trans (hfirst e hm) (Quantity.le_of_lt hlt)
    · next hlt =>
      refine List.pairwise_cons.mpr ⟨fun e hm => ?_, ih hrest he hr⟩
      rcases List.mem_cons.mp ((insertHeavy_perm entry rest).subset hm) with rfl | hm
      · exact Quantity.le_of_not_lt hf he hlt
      · exact hfirst e hm

theorem ranked_ranked {entries : List (T × Nat)} (hnonneg : ∀ e ∈ entries, 0 ≤ e.1) :
    Ranked (ranked entries) := by
  have key (held : List (T × Nat)) (h : Ranked held) (hh : ∀ e ∈ held, 0 ≤ e.1) :
      Ranked (entries.foldl (fun held entry => insertHeavy entry held) held) := by
    induction entries generalizing held with
    | nil => exact h
    | cons entry rest ih =>
      have he := hnonneg entry List.mem_cons_self
      refine ih (fun e hm => hnonneg e (List.mem_cons_of_mem _ hm)) _ (h.insertHeavy he hh) ?_
      intro e hm
      rcases List.mem_cons.mp ((insertHeavy_perm entry held).subset hm) with rfl | hm
      · exact he
      · exact hh e hm
  exact key [] .nil (by simp)

end Order

/-- An entry at neither of two positions. -/
def elsewhere (s t : Nat) (entry : T × Nat) : Bool := entry.2 != s && entry.2 != t

omit [Quantity T] in
/-- Of three entries with different positions one is at neither of two. -/
theorem find?_elsewhere_take {entries : List (T × Nat)} (hn : (entries.map (·.2)).Nodup)
    (s t : Nat) : (entries.take 3).find? (elsewhere s t) = entries.find? (elsewhere s t) := by
  match entries with
  | [] | [_] | [_, _] => rfl
  | a :: b :: c :: rest =>
    simp only [List.map_cons, List.nodup_cons, List.mem_cons, not_or] at hn
    have hsome : elsewhere s t a = true ∨ elsewhere s t b = true ∨ elsewhere s t c = true := by
      simp only [elsewhere, Bool.and_eq_true, bne_iff_ne]
      omega
    simp only [List.take_succ_cons, List.take_zero, List.find?_cons]
    cases ha : elsewhere s t a with
    | true => rfl
    | false =>
      cases hb : elsewhere s t b with
      | true => rfl
      | false =>
        cases hc : elsewhere s t c with
        | true => rfl
        | false => simp [ha, hb, hc] at hsome

/-- The heaviest load at neither of two positions, zero if there is none. -/
def untouched (loads : List T) (s t : Nat) : T :=
  (((topThree loads).find? (elsewhere s t)).map (·.1)).getD 0

theorem makespanAfter_eq (loads : List T) (s t : Nat) (a b : T) :
    makespanAfter (topThree loads) (s, a) (t, b) =
      Quantity.larger (Quantity.larger (untouched loads s t) a) b := rfl

theorem untouched_eq (loads : List T) (s t : Nat) :
    untouched loads s t =
      (((ranked loads.zipIdx).find? (elsewhere s t)).map (·.1)).getD 0 := by
  rw [untouched, topThree_eq, find?_elsewhere_take (nodup_ranked loads)]

/-- It is one of the loads at other positions, or there is no such load. -/
theorem untouched_eq_or (loads : List T) (s t : Nat) :
    untouched loads s t = 0 ∨
      ∃ i, i ≠ s ∧ i ≠ t ∧ loads[i]? = some (untouched loads s t) := by
  rw [untouched_eq]
  cases hf : (ranked loads.zipIdx).find? (elsewhere s t) with
  | none => exact .inl rfl
  | some entry =>
    have hother := List.find?_some hf
    simp only [elsewhere, Bool.and_eq_true, bne_iff_ne] at hother
    exact .inr ⟨entry.2, hother.1, hother.2, mem_ranked_iff.mp (List.mem_of_find?_eq_some hf)⟩

section Order

variable [LawfulQuantity T] {loads : List T} {s t : Nat}

theorem nonneg_untouched (hnonneg : ∀ x ∈ loads, 0 ≤ x) : 0 ≤ untouched loads s t := by
  rcases untouched_eq_or loads s t with h | ⟨i, -, -, h⟩
  · rw [h]
    exact LawfulQuantity.zero_le_zero
  · exact hnonneg _ (List.mem_of_getElem? h)

/-- No load at another position is heavier. -/
theorem le_untouched (hnonneg : ∀ x ∈ loads, 0 ≤ x) {i : Nat} (hs : i ≠ s) (ht : i ≠ t) {x : T}
    (hx : loads[i]? = some x) : x ≤ untouched loads s t := by
  have hentries : ∀ e ∈ loads.zipIdx, 0 ≤ e.1 := fun e hm =>
    hnonneg e.1 (List.mem_of_getElem? (List.mem_zipIdx_iff_getElem?.mp hm))
  have hmem : (x, i) ∈ ranked loads.zipIdx := mem_ranked_iff.mpr hx
  have hother : elsewhere s t (x, i) = true := by simp [elsewhere, hs, ht]
  rw [untouched_eq]
  cases hf : (ranked loads.zipIdx).find? (elsewhere s t) with
  | none => exact absurd hother (List.find?_eq_none.mp hf _ hmem)
  | some entry =>
    obtain ⟨-, front, back, hsplit, hnone⟩ := List.find?_eq_some_iff_append.mp hf
    have hranked := ranked_ranked hentries
    rw [hsplit] at hmem hranked
    -- The entry that is found stands before every other one that it could be.
    rcases List.mem_append.mp hmem with hm | hm
    · have hcontra := hnone _ hm
      rw [hother] at hcontra
      contradiction
    · rcases List.mem_cons.mp hm with heq | hm
      · rw [← heq]
        exact Quantity.le_refl (hnonneg x (List.mem_of_getElem? hx))
      · exact (List.pairwise_cons.mp (List.pairwise_append.mp hranked).2.1).1 _ hm

/-- Of loads that differ at two positions only, the largest is the makespan after the move, if the
loads at these two are given to it. -/
theorem same_makespanAfter {later : List T} {a b a' b' : T} (hnonneg : ∀ x ∈ loads, 0 ≤ x)
    (hlater : ∀ x ∈ later, 0 ≤ x) (hsame : ∀ i, i ≠ s → i ≠ t → later[i]? = loads[i]?)
    (ha : later[s]? = some a') (hb : later[t]? = some b') (haa : Quantity.Same a a')
    (hbb : Quantity.Same b b') :
    Quantity.Same (makespanAfter (topThree loads) (s, a) (t, b)) (Quantity.largest later) := by
  have hu := nonneg_untouched (s := s) (t := t) hnonneg
  have ha0 : 0 ≤ a := Quantity.le_trans (hlater a' (List.mem_of_getElem? ha)) haa.2
  have hb0 : 0 ≤ b := Quantity.le_trans (hlater b' (List.mem_of_getElem? hb)) hbb.2
  have hua := Quantity.nonneg_larger hu a
  have hle_left := Quantity.left_le_larger hua b
  rw [makespanAfter_eq]
  constructor
  · have huntouched : untouched loads s t ≤ Quantity.largest later := by
      rcases untouched_eq_or loads s t with h | ⟨i, his, hit, h⟩
      · rw [h]
        exact Quantity.nonneg_largest later
      · exact Quantity.le_largest hlater (List.mem_of_getElem? ((hsame i his hit).trans h))
    have hsource := Quantity.le_trans haa.1
      (Quantity.le_largest hlater (List.mem_of_getElem? ha))
    have htarget := Quantity.le_trans hbb.1
      (Quantity.le_largest hlater (List.mem_of_getElem? hb))
    exact Quantity.larger_le hua (Quantity.larger_le hu huntouched hsource) htarget
  · refine Quantity.largest_le (Quantity.nonneg_larger hua b) fun x hx => ?_
    obtain ⟨i, hi⟩ := List.mem_iff_getElem?.mp hx
    by_cases his : i = s
    · subst his
      obtain rfl := Option.some.inj (hi.symm.trans ha)
      exact Quantity.le_trans haa.2
        (Quantity.le_trans (Quantity.right_le_larger hu ha0) hle_left)
    · by_cases hit : i = t
      · subst hit
        obtain rfl := Option.some.inj (hi.symm.trans hb)
        exact Quantity.le_trans hbb.2 (Quantity.right_le_larger hua hb0)
      · have hle := le_untouched hnonneg his hit ((hsame i his hit).symm.trans hi)
        exact Quantity.le_trans hle
          (Quantity.le_trans (Quantity.left_le_larger hu a) hle_left)

/-- A move is scored below a bound that the loads it leaves alone stay below, unless one of the two
loads that it changes reaches the bound. -/
theorem makespanAfter_lt_iff {a b c : T} (hnonneg : ∀ x ∈ loads, 0 ≤ x) (hb : 0 ≤ b) (hc : 0 ≤ c)
    (hu : untouched loads s t < c) :
    makespanAfter (topThree loads) (s, a) (t, b) < c ↔ ¬ c ≤ a ∧ ¬ c ≤ b := by
  have h0 := nonneg_untouched (s := s) (t := t) hnonneg
  have hua := Quantity.nonneg_larger h0 a
  have hsource : Quantity.larger (untouched loads s t) a < c ↔ ¬ c ≤ a := by
    rw [Quantity.larger_eq h0]
    split
    · next hlt =>
      have ha := Quantity.le_trans h0 (Quantity.le_of_lt hlt)
      exact ⟨Quantity.not_le_of_lt, Quantity.lt_of_not_le hc ha⟩
    · next hlt =>
      -- A load that does not outweigh the others does not reach a bound above them.
      refine ⟨fun _ hle => hlt ?_, fun _ => hu⟩
      exact Quantity.lt_of_lt_of_le hu hle
  have htarget : b < c ↔ ¬ c ≤ b := ⟨Quantity.not_le_of_lt, Quantity.lt_of_not_le hc hb⟩
  rw [makespanAfter_eq, Quantity.larger_lt_iff hua hb, hsource, htarget]

end Order
end JobAllocation.LocalSearch
