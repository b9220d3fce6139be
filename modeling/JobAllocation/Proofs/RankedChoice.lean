import JobAllocation.Proofs.Choices

/-!
# The first of the least by rank

A comparison by scores is a total preorder whatever the scores are, undefined ones and signed zeros
included. A scan that follows such a comparison keeps the earlier of two candidates unless the later
one comes strictly before it. Keeping is associative, so the scan can be cut in parts, and it ends
at the first candidate that nothing comes before. Of that candidate every prefix of the scores is
least, and no reordering of the candidates changes its scores or its number.
-/
namespace JobAllocation

namespace Selection

variable {α : Type} (cmp : α → α → Ordering)

/-- Whether nothing listed comes before the candidate. -/
def isLeast (candidates : List α) (a : α) : Bool := candidates.all fun b => (cmp a b).isLE

/-- The candidate that the scan goes on with. -/
def keep (held next : α) : α := if cmp next held == .lt then next else held

variable {cmp}

theorem isLE_of_isLeast {candidates : List α} {a b : α} (h : isLeast cmp candidates a = true)
    (hb : b ∈ candidates) : (cmp a b).isLE = true :=
  List.all_eq_true.mp h b hb

variable [Std.TransCmp cmp]

theorem isLE_of_not_lt {a b : α} (h : ¬ cmp b a = .lt) : (cmp a b).isLE = true := by
  have hswap : cmp a b = (cmp b a).swap := Std.OrientedCmp.eq_swap
  rw [hswap, Ordering.isLE_swap]
  cases hba : cmp b a with
  | lt => exact absurd hba h
  | eq => rfl
  | gt => rfl

instance : Std.Associative (keep cmp) where
  assoc a b c := by
    by_cases hba : cmp b a = .lt
    · by_cases hcb : cmp c b = .lt
      · have hca : cmp c a = .lt := Std.TransCmp.lt_trans hcb hba
        simp [keep, hba, hcb, hca]
      · simp [keep, hba, hcb]
    · by_cases hcb : cmp c b = .lt
      · simp [keep, hba, hcb]
      · -- The first is at most the second and the second at most the third.
        have hac := Std.TransCmp.isLE_trans (isLE_of_not_lt hba) (isLE_of_not_lt hcb)
        have hca : ¬ cmp c a = .lt := fun h => by
          rw [Std.OrientedCmp.gt_of_lt h] at hac
          cases hac
        simp [keep, hba, hcb, hca]

/-- A scan of two lists, one after the other, decides between what each of them holds. -/
theorem best?_append {xs ys : List α} {a b : α}
    (ha : best? (fun a b => cmp a b == .lt) xs = some a)
    (hb : best? (fun a b => cmp a b == .lt) ys = some b) :
    best? (fun a b => cmp a b == .lt) (xs ++ ys) = some (keep cmp a b) := by
  cases xs with
  | nil => cases ha
  | cons x xs =>
    cases ys with
    | nil => cases hb
    | cons y ys =>
      obtain rfl : xs.foldl (keep cmp) x = a := Option.some.inj ha
      obtain rfl : ys.foldl (keep cmp) y = b := Option.some.inj hb
      change some ((xs ++ y :: ys).foldl (keep cmp) x) = _
      rw [List.foldl_append, List.foldl_cons, List.foldl_assoc]

/-- The scan ends at the first candidate that nothing comes before. -/
theorem best?_zipIdx (xs : List α) :
    (best? (fun a b => cmp a.1 b.1 == .lt) xs.zipIdx).map (·.2) =
      xs.findIdx? (isLeast cmp xs) := by
  cases h : best? (fun a b => cmp a.1 b.1 == .lt) xs.zipIdx with
  | none =>
    obtain rfl : xs = [] := List.zipIdx_eq_nil_iff.mp (best?_eq_none_iff.mp h)
    rfl
  | some best =>
    obtain ⟨a, i⟩ := best
    have hlisted : xs.zipIdx.Pairwise fun p q => p.2 < q.2 := by
      rw [← List.pairwise_map (f := Prod.snd) (R := (· < ·)), List.zipIdx_map_snd]
      exact List.pairwise_lt_range'
    have hleast : ∀ q ∈ xs.zipIdx, (cmp a q.1).isLE = true ∧ (q.2 < i → cmp a q.1 = .lt) := by
      refine best?_le_of_pairwise
        (fun p q => (cmp p.1 q.1).isLE = true ∧ (q.2 < p.2 → cmp p.1 q.1 = .lt)) hlisted
        (fun p _ => ⟨Std.ReflCmp.isLE_rfl, fun hlt => absurd hlt (Nat.lt_irrefl _)⟩) ?_
        (fun p _ q _ hlt => ?_) (fun p _ q _ hpq hlt => ?_) h
      · intro p q r hpq hqr
        refine ⟨Std.TransCmp.isLE_trans hpq.1 hqr.1, fun hrp => ?_⟩
        by_cases hrq : r.2 < q.2
        · exact Std.TransCmp.lt_of_isLE_of_lt hpq.1 (hqr.2 hrq)
        · exact Std.TransCmp.lt_of_lt_of_isLE (hpq.2 (by omega)) hqr.1
      · have hlt := beq_iff_eq.mp hlt
        exact ⟨by rw [hlt]; rfl, fun _ => hlt⟩
      · exact ⟨isLE_of_not_lt (by simpa using hlt), fun hqp => absurd hqp (by omega)⟩
    obtain ⟨hi, hget⟩ := List.getElem?_eq_some_iff.mp
      (List.mem_zipIdx_iff_getElem?.mp (mem_of_best? h))
    refine (List.findIdx?_eq_some_iff_getElem.mpr ⟨hi, ?_, fun j hj hother => ?_⟩).symm
    · refine List.all_eq_true.mpr fun b hb => ?_
      obtain ⟨j, hj, rfl⟩ := List.mem_iff_getElem.mp hb
      rw [hget]
      exact (hleast (xs[j], j) (List.mem_zipIdx_iff_getElem?.mpr
        (List.getElem?_eq_getElem hj))).1
    · -- An earlier candidate comes after the one that was chosen.
      have hlt := (hleast (xs[j], j) (List.mem_zipIdx_iff_getElem?.mpr
        (List.getElem?_eq_getElem (Nat.lt_trans hj hi)))).2 hj
      have hle := isLE_of_isLeast hother (List.getElem_mem hi)
      rw [hget, Std.OrientedCmp.gt_of_lt hlt] at hle
      cases hle

end Selection

namespace Ranking

variable {T : Type} [Quantity T] {ranking : Ranking T} {jobs others : List (Job T)} {a b : Job T}
  {i j : Nat}

/-- What the rules say of a job, in the order in which they are consulted. -/
def scores (ranking : Ranking T) (job : Job T) : List T := ranking.map (· job)

/-- The job at the position goes first. -/
structure Picks (ranking : Ranking T) (jobs : List (Job T)) (i : Nat) (a : Job T) : Prop where
  index : ranking.selectIndex? jobs = some i
  job : jobs[i]? = some a

/-- The scores of the rules that are consulted first decide if they can. -/
theorem compare_append (front rest : Ranking T) (a b : Job T) :
    compare (front ++ rest) a b =
      (List.compareLex Quantity.totalOrder (scores front a) (scores front b)).then
        (compare rest a b) := by
  induction front with
  | nil => rfl
  | cons score front ih =>
    change (Quantity.totalOrder (score a) (score b)).then (compare (front ++ rest) a b) = _
    rw [ih, ← Ordering.then_assoc, ← List.compareLex_cons_cons]
    rfl

/-- A job that goes no later than another has no larger scores under the rules that are consulted
first. -/
theorem scores_isLE {front rest : Ranking T} (h : (compare (front ++ rest) a b).isLE = true) :
    (List.compareLex Quantity.totalOrder (scores front a) (scores front b)).isLE = true := by
  rw [compare_append, Ordering.isLE_then_iff_or] at h
  rcases h with h | ⟨h, -⟩
  · rw [h]
    rfl
  · rw [h]
    rfl

/-- Jobs of which neither goes before the other have the same scores. -/
theorem scores_eq [Std.LawfulEqCmp (Quantity.totalOrder : T → T → Ordering)]
    (h : ranking.compare a b = .eq) : ranking.scores a = ranking.scores b := by
  have hsplit := compare_append ranking [] a b
  rw [List.append_nil, h] at hsplit
  exact Std.LawfulEqCmp.eq_of_compare (Ordering.then_eq_eq.mp hsplit.symm).1

theorem exists_picks (ranking : Ranking T) (hjobs : jobs ≠ []) :
    ∃ i a, ranking.Picks jobs i a := by
  cases h : Selection.best? (fun a b => ranking.precedes a.1 b.1) jobs.zipIdx with
  | none => exact absurd (List.zipIdx_eq_nil_iff.mp (Selection.best?_eq_none_iff.mp h)) hjobs
  | some best =>
    exact ⟨best.2, best.1, by rw [selectIndex?, h]; rfl,
      List.mem_zipIdx_iff_getElem?.mp (Selection.mem_of_best? h)⟩

theorem Picks.mem (h : ranking.Picks jobs i a) : a ∈ jobs := List.mem_of_getElem? h.job

theorem Picks.best?_eq (h : ranking.Picks jobs i a) :
    Selection.best? (fun a b => ranking.precedes a.1 b.1) jobs.zipIdx = some (a, i) := by
  obtain ⟨best, hbest, rfl⟩ := Option.map_eq_some_iff.mp h.index
  have hjob := List.mem_zipIdx_iff_getElem?.mp (Selection.mem_of_best? hbest)
  rw [h.job, Option.some.injEq] at hjob
  rw [hbest, hjob]

variable [OrderedQuantity T]

/-- The position that is chosen is that of the first job that no other goes before. -/
theorem selectIndex?_eq_findIdx? (ranking : Ranking T) (jobs : List (Job T)) :
    ranking.selectIndex? jobs = jobs.findIdx? (Selection.isLeast ranking.compare jobs) :=
  Selection.best?_zipIdx jobs

namespace Picks

theorem isLeast (h : ranking.Picks jobs i a) :
    Selection.isLeast ranking.compare jobs a = true := by
  have hfirst := h.index
  rw [selectIndex?_eq_findIdx?] at hfirst
  obtain ⟨hi, hleast, -⟩ := List.findIdx?_eq_some_iff_getElem.mp hfirst
  obtain ⟨-, rfl⟩ := List.getElem?_eq_some_iff.mp h.job
  exact hleast

/-- Neither of the jobs chosen from two listings of the same jobs goes before the other. -/
theorem compare_eq (ha : ranking.Picks jobs i a) (hb : ranking.Picks others j b)
    (hperm : jobs.Perm others) : ranking.compare b a = .eq :=
  Std.OrientedCmp.isLE_antisymm (Selection.isLE_of_isLeast hb.isLeast (hperm.subset ha.mem))
    (Selection.isLE_of_isLeast ha.isLeast (hperm.symm.subset hb.mem))

/-- The choice from two lists, one after the other, is that between the two choices. -/
theorem append (ha : ranking.Picks jobs i a) (hb : ranking.Picks others j b) :
    ∃ k, ranking.selectIndex? [a, b] = some k ∧
      ranking.selectIndex? (jobs ++ others) = [i, jobs.length + j][k]? := by
  have htrans : Std.TransCmp fun p q : Job T × Nat => ranking.compare p.1 q.1 :=
    { eq_swap := Std.OrientedCmp.eq_swap
      isLE_trans := Std.TransCmp.isLE_trans }
  have hrest : Selection.best? (fun a b => ranking.precedes a.1 b.1)
      (others.zipIdx (0 + jobs.length)) = some (b, jobs.length + j) := by
    rw [Nat.zero_add, List.zipIdx_eq_map_add, Selection.best?_map, hb.best?_eq]
    rfl
  have hboth := Selection.best?_append ha.best?_eq hrest
  refine ⟨if ranking.precedes b a then 1 else 0, ?_, ?_⟩
  · change some (if ranking.precedes b a then (b, 1) else (a, 0)).2 = _
    split <;> rfl
  · rw [selectIndex?, List.zipIdx_append]
    refine (congrArg (Option.map (·.2)) hboth).trans ?_
    change some (if ranking.precedes b a then (b, jobs.length + j) else (a, i)).2 = _
    split <;> rfl

end Picks
end Ranking

theorem Binary64.eq_of_place_eq {x y : Binary64} (h : x.place = y.place) : x = y := by
  have hlimit := limit_pos
  cases x with
  | finite s n hn =>
    have := hn.2
    cases y with
    | finite t m hm =>
      have := hm.2
      cases s <;> cases t <;> simp [place] at h ⊢ <;> omega
    | infinite t => cases s <;> cases t <;> simp [place] at h <;> omega
    | undefined t q => cases s <;> cases t <;> simp [place] at h <;> omega
  | infinite s =>
    cases y with
    | finite t m hm =>
      have := hm.2
      cases s <;> cases t <;> simp [place] at h <;> omega
    | infinite t => cases s <;> cases t <;> simp [place] at h ⊢ <;> omega
    | undefined t q =>
      have := q.fits
      cases s <;> cases t <;> simp [place] at h <;> omega
  | undefined s p =>
    have := p.fits
    cases y with
    | finite t m hm =>
      have := hm.2
      cases s <;> cases t <;> simp [place] at h <;> omega
    | infinite t => cases s <;> cases t <;> simp [place] at h <;> omega
    | undefined t q =>
      have := q.fits
      cases s <;> cases t <;> simp [place, Payload.ext_iff] at h ⊢ <;> omega

/-- The total order tells any two values apart. -/
instance : Std.LawfulEqCmp (Quantity.totalOrder : Binary64 → Binary64 → Ordering) where
  compare_self := Std.ReflCmp.compare_self
  eq_of_compare h := Binary64.eq_of_place_eq (Int.compare_eq_eq.mp h)

/-- The scores of a chain begin with those of what the chain begins with. -/
theorem RuleChain.exists_ranking_append {T : Type} [Quantity T] {front chain : RuleChain}
    (h : front <+: chain) (now : T) :
    ∃ rest : Ranking T, chain.engine.rankingAt now = front.engine.rankingAt now ++ rest := by
  obtain ⟨rest, rfl⟩ := h
  refine ⟨RuleChain.ranking rest, ?_⟩
  rw [rankingAt_engine, rankingAt_engine, ranking, List.map_append]
  rfl

/-- Whatever the fields of the jobs are, a chain of rules compares them by a total preorder and
chooses the first one that is least. The order of the jobs does not change the scores or the number
of what is chosen, its scores under every prefix of the chain are lexicographically least, and jobs
can be chosen from part by part. -/
theorem chain_picks_first_least (chain : RuleChain) (now : Binary64)
    {jobs others more : List (Job Binary64)} (hjobs : jobs ≠ []) (hperm : jobs.Perm others)
    (hmore : more ≠ []) :
    let ranking := chain.engine.rankingAt now
    Std.TransCmp ranking.compare ∧ ∃ i a, ranking.Picks jobs i a ∧
      jobs.findIdx? (Selection.isLeast ranking.compare jobs) = some i ∧
      (∃ j b, ranking.Picks others j b ∧ ranking.scores b = ranking.scores a ∧ b.id = a.id) ∧
      (∀ front : RuleChain, front <+: chain → ∀ job ∈ jobs,
        (List.compareLex Quantity.totalOrder ((front.engine.rankingAt now).scores a)
          ((front.engine.rankingAt now).scores job)).isLE = true) ∧
      ∃ j b k, ranking.Picks more j b ∧ ranking.selectIndex? [a, b] = some k ∧
        ranking.selectIndex? (jobs ++ more) = [i, jobs.length + j][k]? := by
  intro ranking
  obtain ⟨i, a, ha⟩ := ranking.exists_picks hjobs
  obtain ⟨j, b, hb⟩ := ranking.exists_picks fun hnil : others = [] => hjobs (hnil ▸ hperm).eq_nil
  obtain ⟨n, c, hc⟩ := ranking.exists_picks hmore
  obtain ⟨k, hpair, happend⟩ := ha.append hc
  have hsame := ha.compare_eq hb hperm
  refine ⟨inferInstance, i, a, ha, ?_,
    ⟨j, b, hb, Ranking.scores_eq hsame, Ranking.id_eq_of_compare_eq hsame⟩,
    fun front hfront job hjob => ?_, n, c, k, hc, hpair, happend⟩
  · rw [← Ranking.selectIndex?_eq_findIdx?]
    exact ha.index
  · obtain ⟨rest, hchain⟩ := RuleChain.exists_ranking_append hfront now
    have hle := Selection.isLE_of_isLeast ha.isLeast hjob
    rw [show ranking = _ ++ rest from hchain] at hle
    exact Ranking.scores_isLE hle

/-- Jobs that arrive at undefined times of different payloads, at zero and at the negative zero,
some of them with one number. -/
def oddArrivals : List (Job Binary64) :=
  [⟨4, "lost", 10, .undefined false ⟨2 ^ 51 + 1, by decide⟩, none, 10⟩,
    ⟨5, "astray", 10, .undefined false, none, 10⟩, ⟨7, "late", 10, 0, none, 10⟩,
    ⟨7, "first", 30, .zero true, none, 30⟩, ⟨7, "again", 20, .zero true, none, 20⟩]

theorem chain_picks_first_least_oddArrivals :
    let chain : RuleChain := [.fifo, .edd]
    let ranking : Ranking Binary64 := chain.engine.rankingAt (.undefined true)
    oddArrivals ≠ [] ∧ oddArrivals.Perm oddArrivals.reverse ∧ [.fifo] <+: chain ∧
      ∃ i a j b, ranking.Picks oddArrivals i a ∧ ranking.Picks oddArrivals.reverse j b ∧
        ranking.scores b = ranking.scores a ∧ b.id = a.id ∧
        (∀ job ∈ oddArrivals,
          (List.compareLex Quantity.totalOrder [a.arrival] [job.arrival]).isLE = true) ∧
        ∃ k, ranking.selectIndex? [a, b] = some k ∧
          ranking.selectIndex? (oddArrivals ++ oddArrivals.reverse) = [i, 5 + j][k]? := by
  intro chain ranking
  have hnonempty : oddArrivals ≠ [] := List.cons_ne_nil _ _
  have hperm : oddArrivals.Perm oddArrivals.reverse := (List.reverse_perm _).symm
  have hfront : [.fifo] <+: chain := ⟨[.edd], rfl⟩
  obtain ⟨-, i, a, ha, -, ⟨j, b, hb, hscores, hid⟩, hleast, n, c, k, hc, hpair, happend⟩ :=
    chain_picks_first_least chain (.undefined true) hnonempty hperm
      (List.reverse_ne_nil_iff.mpr hnonempty)
  obtain rfl := Option.some.inj (hb.index.symm.trans hc.index)
  obtain rfl := Option.some.inj (hb.job.symm.trans hc.job)
  exact ⟨hnonempty, hperm, hfront, i, a, j, b, ha, hb, hscores, hid, hleast [.fifo] hfront, k,
    hpair, happend⟩

/-- The two that arrive at the negative zero are alike, and the first of them goes first. -/
example : RuleChain.selectIndex? [.fifo, .edd] oddArrivals = some 3 := by decide +kernel

/-- Of two undefined times that of the smaller payload goes first, whatever the numbers are. -/
example : RuleChain.selectIndex? [.fifo, .edd] (oddArrivals.take 2) = some 1 := by decide +kernel

end JobAllocation
