import Mathlib.Tactic
import Mathlib.Data.Prod.Lex
import SignalAtlas.Graph.Unused
import SignalAtlas.Proofs.Rearrangements

/-!
# The order of confidences

Doubles that are numbers are compared like their ranks (`Unused.rank`), so on them `<` is the strict
part of a total preorder, and `==` its equivalence: the two zeros are equal, all else differs. From
this reports with numbers for confidences have exactly one order, by falling confidence and then by
name (`Unused.Precedes`), and `Unused.sort?` finds it.
-/

namespace SignalAtlas.Unused

/-! ### Comparing doubles -/

/-- Where a number stands among the others: by sign and size, then by exponent, then by mantissa.
Below zero the larger ones come first. -/
def unpackedRank : Float.Model.UnpackedFloat → ℤ ×ₗ ℤ ×ₗ ℤ
  | .notANumber => toLex (0, toLex (0, 0))
  | .infinity .negative => toLex (-2, toLex (0, 0))
  | .finite .negative m e _ => toLex (-1, toLex (-e, -m))
  | .zero _ => toLex (0, toLex (0, 0))
  | .finite .positive m e _ => toLex (1, toLex (e, m))
  | .infinity .positive => toLex (2, toLex (0, 0))

/-- Where a double stands among the others. -/
def rank (x : Float) : ℤ ×ₗ ℤ ×ₗ ℤ := unpackedRank x.toModel.unpack

theorem compare_neg (a b : ℤ) : compare (-a) (-b) = (compare a b).swap := by
  rw [← Std.OrientedOrd.eq_swap]
  rcases lt_trichotomy a b with h | rfl | h
  · rw [compare_gt_iff_gt.2 h, compare_gt_iff_gt.2 (neg_lt_neg h)]
  · rw [compare_eq_iff_eq.2 rfl, compare_eq_iff_eq.2 rfl]
  · rw [compare_lt_iff_lt.2 h, compare_lt_iff_lt.2 (neg_lt_neg h)]

theorem compare_cast (m n : ℕ) : compare (m : ℤ) (n : ℤ) = compare m n := by
  rcases lt_trichotomy m n with h | rfl | h
  · rw [compare_lt_iff_lt.2 h, compare_lt_iff_lt.2 (by exact_mod_cast h)]
  · rw [compare_eq_iff_eq.2 rfl, compare_eq_iff_eq.2 rfl]
  · rw [compare_gt_iff_gt.2 h, compare_gt_iff_gt.2 (by exact_mod_cast h)]

/-- Numbers are compared like their ranks. -/
theorem compare_eq_compare_rank {a b : Float.Model.UnpackedFloat} (ha : a.isNaN = false)
    (hb : b.isNaN = false) : a.compare b = some (compare (unpackedRank a) (unpackedRank b)) := by
  have hlex : ∀ (k : ℤ) (e e' m m' : ℤ),
      compare (toLex (k, toLex (e, m))) (toLex (k, toLex (e', m'))) =
        (compare e e').then (compare m m') := by
    intro k e e' m m'
    show (compare k k).then ((compare e e').then (compare m m')) = _
    rw [compare_eq_iff_eq.2 rfl]
    rfl
  cases a with
  | notANumber => cases ha
  | infinity s =>
    cases b with
    | notANumber => cases hb
    | infinity s' => cases s <;> cases s' <;> rfl
    | zero s' => cases s <;> rfl
    | finite s' m e h => cases s <;> cases s' <;> rfl
  | zero s =>
    cases b with
    | notANumber => cases hb
    | infinity s' => cases s' <;> rfl
    | zero s' => rfl
    | finite s' m e h => cases s' <;> rfl
  | finite s m e h =>
    cases b with
    | notANumber => cases hb
    | infinity s' => cases s <;> cases s' <;> rfl
    | zero s' => cases s <;> rfl
    | finite s' m' e' h' =>
      cases s <;> cases s'
      · refine Eq.trans ?_ (congrArg some (hlex (-1) (-e) (-e') (-m) (-m')).symm)
        rw [compare_neg, compare_neg, compare_cast, ← Ordering.swap_then]
        rfl
      · rfl
      · rfl
      · refine Eq.trans ?_ (congrArg some (hlex 1 e e' m m').symm)
        rw [compare_cast]
        rfl

variable {x y : Float}

theorem lt_iff_rank_lt (hx : x.isNaN = false) (hy : y.isNaN = false) :
    x < y ↔ rank x < rank y := by
  have h : x.toModel.unpack.compare y.toModel.unpack = some (compare (rank x) (rank y)) :=
    compare_eq_compare_rank hx hy
  show decide ((x.toModel.unpack.compare y.toModel.unpack == some .lt) = true) = true ↔ _
  rw [h, decide_eq_true_eq, beq_iff_eq, Option.some.injEq, compare_lt_iff_lt]

theorem beq_iff_rank_eq (hx : x.isNaN = false) (hy : y.isNaN = false) :
    (x == y) = true ↔ rank x = rank y := by
  have h : x.toModel.unpack.compare y.toModel.unpack = some (compare (rank x) (rank y)) :=
    compare_eq_compare_rank hx hy
  show (x.toModel.unpack.compare y.toModel.unpack == some .eq) = true ↔ _
  rw [h, beq_iff_eq, Option.some.injEq, compare_eq_iff_eq]

/-! ### Reports in order -/

/-- A report stands strictly before another one: by falling confidence, then by name. -/
def Precedes (a b : UnusedReport) : Prop :=
  b.confidence < a.confidence ∨
    (a.confidence == b.confidence) = true ∧ a.signalName < b.signalName

instance decidablePrecedes (a b : UnusedReport) : Decidable (Precedes a b) :=
  inferInstanceAs (Decidable (_ ∨ _))

/-- The order of reports by falling rank, then by name. -/
def NotAfter (a b : UnusedReport) : Prop :=
  rank b.confidence < rank a.confidence ∨
    rank a.confidence = rank b.confidence ∧ a.signalName ≤ b.signalName

theorem NotAfter.trans {a b c : UnusedReport} (hab : NotAfter a b) (hbc : NotAfter b c) :
    NotAfter a c := by
  rcases hab with hab | ⟨hab, hname⟩
  · rcases hbc with hbc | ⟨hbc, -⟩
    · exact .inl (hbc.trans hab)
    · exact .inl (hbc ▸ hab)
  · rcases hbc with hbc | ⟨hbc, hname'⟩
    · exact .inl (hab ▸ hbc)
    · exact .inr ⟨hab.trans hbc, String.le_trans hname hname'⟩

theorem notAfter_total (a b : UnusedReport) : NotAfter a b ∨ NotAfter b a := by
  rcases lt_trichotomy (rank a.confidence) (rank b.confidence) with h | h | h
  · exact .inr (.inl h)
  · rcases String.le_total a.signalName b.signalName with hname | hname
    · exact .inl (.inr ⟨h, hname⟩)
    · exact .inr (.inr ⟨h.symm, hname⟩)
  · exact .inl (.inl h)

variable {a b : UnusedReport} {l m : List UnusedReport}

theorem before_eq_false_iff (ha : a.confidence.isNaN = false) (hb : b.confidence.isNaN = false) :
    before b a = false ↔ NotAfter a b := by
  rw [NotAfter, before]
  simp only [lt_iff_rank_lt ha hb, lt_iff_rank_lt hb ha]
  rcases lt_trichotomy (rank a.confidence) (rank b.confidence) with h | h | h
  · simp [h, h.not_gt, h.ne]
  · simp only [h, lt_irrefl, if_false, false_or, true_and, decide_eq_false_iff_not, String.not_lt]
  · simp [h, h.not_gt]

theorem precedes_of_notAfter (ha : a.confidence.isNaN = false) (hb : b.confidence.isNaN = false)
    (h : NotAfter a b) (hne : a.signalName ≠ b.signalName) : Precedes a b := by
  rcases h with h | ⟨h, hname⟩
  · exact .inl ((lt_iff_rank_lt hb ha).2 h)
  · exact .inr ⟨(beq_iff_rank_eq ha hb).2 h, Std.lt_of_le_of_ne hname hne⟩

theorem not_precedes_of_precedes (ha : a.confidence.isNaN = false)
    (hb : b.confidence.isNaN = false) (h : Precedes a b) : ¬Precedes b a := by
  simp only [Precedes, lt_iff_rank_lt ha hb, lt_iff_rank_lt hb ha, beq_iff_rank_eq ha hb,
    beq_iff_rank_eq hb ha] at h ⊢
  rintro (hba | ⟨hba, hname⟩)
  · rcases h with h | ⟨h, -⟩
    · exact lt_asymm h hba
    · exact hba.ne h
  · rcases h with h | ⟨h, hname'⟩
    · exact h.ne hba
    · exact String.lt_asymm hname hname'

/-- Two orders of the same numbered reports are one. -/
theorem eq_of_perm_of_precedes (hnumbers : ∀ r ∈ l, r.confidence.isNaN = false) (h : l.Perm m)
    (hl : l.Pairwise Precedes) (hm : m.Pairwise Precedes) : l = m := by
  refine h.eq_of_pairwise (fun a b ha hb hab hba => ?_) hl hm
  exact absurd hba (not_precedes_of_precedes (hnumbers a ha) (hnumbers b (h.symm.subset hb)) hab)

theorem perm_of_sort? (h : sort? l = some m) : m.Perm l := by
  unfold sort? at h
  split at h
  · exact RunSort.rearranges_sort? l m h
  · cases h
    exact List.mergeSort_perm l _

/-- Few reports can always be brought in order. -/
theorem exists_sort?_of_length (h : l.length ≤ 20) : ∃ m, sort? l = some m := by
  unfold sort?
  split
  · rw [RunSort.sort?, if_pos h]
    exact ⟨_, rfl⟩
  · exact ⟨_, rfl⟩

/-- Only the comparisons between members of a list matter to its sorting. -/
theorem mergeSort_congr {α : Type} {r s : α → α → Bool} {l : List α}
    (h : ∀ a ∈ l, ∀ b ∈ l, r a b = s a b) : l.mergeSort r = l.mergeSort s := by
  simpa using List.map_mergeSort (f := id) h

/-- Reports on different names whose confidences are numbers are brought in order. -/
theorem exists_sort?_of_numbers (hnumbers : ∀ r ∈ l, r.confidence.isNaN = false)
    (hnames : (l.map UnusedReport.signalName).Nodup) :
    ∃ m, sort? l = some m ∧ m.Pairwise Precedes := by
  classical
  have hany : ¬(l.any fun r => r.confidence.isNaN) = true := by
    simpa using hnumbers
  -- among numbers the comparison is that of ranks, which is one for all reports
  have hranks : (l.mergeSort fun a b => !before b a) =
      l.mergeSort fun a b => decide (NotAfter a b) := by
    refine mergeSort_congr fun a ha b hb => ?_
    rw [Bool.eq_iff_iff, decide_eq_true_eq, Bool.not_eq_true']
    exact before_eq_false_iff (hnumbers a ha) (hnumbers b hb)
  have hsorted : (l.mergeSort fun a b => !before b a).Pairwise NotAfter := by
    rw [hranks]
    have h := @List.pairwise_mergeSort _ (fun a b => decide (NotAfter a b))
      (fun a b c hab hbc => by simp only [decide_eq_true_eq] at *; exact hab.trans hbc)
      (fun a b => by simpa using notAfter_total a b) l
    simpa using h
  refine ⟨_, if_neg hany, ?_⟩
  have hnames' : ((l.mergeSort fun a b => !before b a).map UnusedReport.signalName).Nodup :=
    ((List.mergeSort_perm l _).map _).nodup_iff.2 hnames
  refine List.Pairwise.imp_of_mem ?_ (hsorted.and (List.pairwise_map.1 hnames'))
  rintro a b ha hb ⟨hle, hne⟩
  exact precedes_of_notAfter (hnumbers a (List.mem_mergeSort.1 ha))
    (hnumbers b (List.mem_mergeSort.1 hb)) hle hne

end SignalAtlas.Unused
