import JobAllocation.Proofs.Choices
import JobAllocation.Proofs.HeaviestLoads

/-!
# Three loads stand for all of them

While moves are scored, three of the loads are kept, or all if there are fewer: at distinct
positions, heaviest first and with none heavier left out. From these the makespan after any two
loads have been replaced comes out as the largest of the whole list with the two in their places.
-/
namespace JobAllocation.LocalSearch

variable {T : Type} [Quantity T] {loads : List T}

/-- Three of the loads with their positions, or all if there are fewer, heaviest first. No load that
is left out is heavier than one of them. -/
structure Heaviest (loads : List T) (top : List (T × Nat)) : Prop where
  held : ∀ entry ∈ top, loads[entry.2]? = some entry.1
  distinct : (top.map (·.2)).Nodup
  length : top.length = min 3 loads.length
  descending : top.Pairwise fun a b => b.1 ≤ a.1
  left_out : ∀ i x, loads[i]? = some x → i ∉ top.map (·.2) → ∀ entry ∈ top, x ≤ entry.1

theorem heaviest_topThree [LawfulQuantity T] (hnonneg : ∀ x ∈ loads, 0 ≤ x) :
    Heaviest loads (topThree loads) := by
  have hranked : Ranked ((ranked loads.zipIdx).take 3 ++ (ranked loads.zipIdx).drop 3) := by
    rw [List.take_append_drop]
    exact ranked_ranked fun entry he =>
      hnonneg _ (List.mem_of_getElem? (List.mem_zipIdx_iff_getElem?.mp he))
  obtain ⟨hdescending, -, hbelow⟩ := List.pairwise_append.mp hranked
  rw [topThree_eq]
  refine ⟨fun entry he => mem_ranked_iff.mp (List.mem_of_mem_take he), ?_, ?_, hdescending, ?_⟩
  · exact (nodup_ranked loads).sublist ((List.take_sublist _ _).map _)
  · rw [List.length_take, (ranked_perm _).length_eq, List.length_zipIdx]
  · intro i x hx hout entry he
    have hmem : (x, i) ∈ (ranked loads.zipIdx).take 3 ++ (ranked loads.zipIdx).drop 3 := by
      rw [List.take_append_drop]
      exact mem_ranked_iff.mpr hx
    rcases List.mem_append.mp hmem with hm | hm
    · exact absurd (List.mem_map_of_mem hm) hout
    · exact hbelow entry he _ hm

/-- From the three heaviest loads the makespan after two of all are replaced is found. -/
theorem same_makespanAfter_set [LawfulQuantity T] (hnonneg : ∀ x ∈ loads, 0 ≤ x) {s t : Nat}
    (hs : s < loads.length) (ht : t < loads.length) (hne : s ≠ t) {a b : T} (ha : 0 ≤ a)
    (hb : 0 ≤ b) :
    Quantity.Same (makespanAfter (topThree loads) (s, a) (t, b))
      (Quantity.largest ((loads.set s a).set t b)) := by
  have hlater : ∀ x ∈ (loads.set s a).set t b, 0 ≤ x := by
    intro x hx
    rcases List.mem_or_eq_of_mem_set hx with hx | rfl
    · rcases List.mem_or_eq_of_mem_set hx with hx | rfl
      · exact hnonneg x hx
      · exact ha
    · exact hb
  refine same_makespanAfter hnonneg hlater (fun i his hit => ?_) ?_ ?_ (.refl ha) (.refl hb)
  · rw [List.getElem?_set_ne hit.symm, List.getElem?_set_ne his.symm]
  · rw [List.getElem?_set_ne hne.symm, List.getElem?_set_self hs]
  · exact List.getElem?_set_self (by rwa [List.length_set])

/-- The three heaviest loads are three, or all if there are fewer, in order of their weight, and
nothing heavier is left out. For any two units and any loads that a move may give them, they are
enough to find the makespan: it is the largest of the whole list with the two loads replaced, and
the same value bit for bit unless it is one of the two zeros. -/
theorem three_loads_decide (loads : List Binary64) (nonneg : ∀ x ∈ loads, 0 ≤ x) :
    Heaviest loads (topThree loads) ∧
      ∀ (s t : Nat) (a b : Binary64), s < loads.length → t < loads.length → s ≠ t → 0 ≤ a → 0 ≤ b →
        let score := makespanAfter (topThree loads) (s, a) (t, b)
        Quantity.Same score (Quantity.largest ((loads.set s a).set t b)) ∧
          (0 < score → score = Quantity.largest ((loads.set s a).set t b)) := by
  refine ⟨heaviest_topThree nonneg, fun s t a b hs ht hne ha hb => ?_⟩
  have hsame := same_makespanAfter_set nonneg hs ht hne ha hb
  exact ⟨hsame, OrderedQuantity.eq_of_same hsame⟩

/-- Five loads, of which two tie for the heaviest and one is a negative zero. -/
def tiedLoads : List Binary64 :=
  [Quantity.ofNat 2, Quantity.ofNat 5, .zero true, Quantity.ofNat 5, Quantity.ofNat 3]

theorem three_loads_decide_tiedLoads :
    (∀ x ∈ tiedLoads, 0 ≤ x) ∧ Heaviest tiedLoads (topThree tiedLoads) ∧
      (topThree tiedLoads).map (·.2) = [1, 3, 4] ∧
      makespanAfter (topThree tiedLoads) (1, 0) (3, Quantity.ofNat 4) =
        Quantity.largest ((tiedLoads.set 1 0).set 3 (Quantity.ofNat 4)) := by
  have hnonneg : ∀ x ∈ tiedLoads, 0 ≤ x := by decide +kernel
  obtain ⟨hheaviest, hscore⟩ := three_loads_decide tiedLoads hnonneg
  exact ⟨hnonneg, hheaviest, by decide +kernel,
    (hscore 1 3 0 (Quantity.ofNat 4) (by decide) (by decide) (by decide) (by decide +kernel)
      (by decide +kernel)).2 (by decide +kernel)⟩

end JobAllocation.LocalSearch
