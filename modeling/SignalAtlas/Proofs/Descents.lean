import Mathlib.Tactic
import SignalAtlas.Proofs.Places

/-!
# Paths below any path

`Places` writes locations as absolute paths. Here a location is appended to a path that is written
in any way: with a slash at its back, with dots, relative to the working folder.

* `Path.pathBelow_eq_join`: descending name by name is joining once;
* `Path.components_join`: the names are what is added to the components;
* `Path.relativeTo_join`, `Path.join_relativeTo`: taking the path relative to its start undoes this;
* `Path.le_iff`: the order of paths is the lexicographic order of their components.
-/

namespace SignalAtlas

theorem splitSlashes_ne_nil (s : Bytes) : splitSlashes s ≠ [] := by
  cases s with
  | nil => simp [splitSlashes]
  | cons b s =>
    rw [splitSlashes]
    split
    · simp
    · cases splitSlashes s <;> simp

theorem splitSlashes_append_slash (s t : Bytes) :
    splitSlashes (s ++ slash :: t) = splitSlashes s ++ splitSlashes t := by
  induction s with
  | nil => simp [splitSlashes]
  | cons b s ih =>
    rw [List.cons_append, splitSlashes, splitSlashes, ih]
    split
    · rfl
    · cases hs : splitSlashes s with
      | nil => exact absurd hs (splitSlashes_ne_nil s)
      | cons u l => rfl

namespace Path

variable {root : Path} {names : Location} {s : Bytes}

/-! ### Joining -/

theorem isAbsolute_eq_false (h : IsName s) (t : Bytes) : isAbsolute ⟨s ++ t⟩ = false := by
  unfold isAbsolute
  rw [beq_eq_false_iff_ne, List.head?_append_of_ne_nil _ h.ne_nil]
  intro hc
  exact h.no_slash (List.mem_of_mem_head? hc)

theorem isAbsolute_joinSlashes (hne : names ≠ []) (h : ∀ s ∈ names, IsName s) :
    isAbsolute ⟨joinSlashes names⟩ = false := by
  cases names with
  | nil => exact absurd rfl hne
  | cons s l =>
    have hs := h s (by simp)
    cases l with
    | nil => simpa using isAbsolute_eq_false hs []
    | cons t l => exact isAbsolute_eq_false hs _

/-- What is written between a path and a name below it. -/
def gap (p : Path) : Bytes := if p.bytes.getLast? = some slash then [] else [slash]

theorem join_eq {t : Bytes} (hr : root.bytes ≠ []) (ht : isAbsolute ⟨t⟩ = false) :
    root.join t = ⟨root.bytes ++ root.gap ++ t⟩ := by
  unfold join gap
  rw [ht, beq_eq_false_iff_ne.2 hr]
  by_cases hl : root.bytes.getLast? = some slash
  · simp [hl]
  · simp [hl]

theorem join_ne_nil (hr : root.bytes ≠ []) (h : IsName s) : (root.join s).bytes ≠ [] := by
  have habs := isAbsolute_eq_false h []
  rw [List.append_nil] at habs
  rw [join_eq hr habs]
  simp [h.ne_nil]

theorem gap_join (hr : root.bytes ≠ []) (h : IsName s) : (root.join s).gap = [slash] := by
  have habs := isAbsolute_eq_false h []
  rw [List.append_nil] at habs
  rw [join_eq hr habs, gap, if_neg]
  rw [List.getLast?_append_of_ne_nil _ h.ne_nil]
  intro hc
  exact h.no_slash (List.mem_of_getLast? hc)

/-- Descending name by name is joining once. -/
theorem pathBelow_eq_join (hr : root.bytes ≠ []) (hne : names ≠ []) (h : ∀ s ∈ names, IsName s) :
    Discovery.pathBelow root names = root.join (joinSlashes names) := by
  unfold Discovery.pathBelow
  induction names generalizing root with
  | nil => exact absurd rfl hne
  | cons s l ih =>
    have hs := h s (by simp)
    have hl : ∀ t ∈ l, IsName t := fun t ht => h t (List.mem_cons_of_mem _ ht)
    rw [List.foldl_cons]
    cases l with
    | nil => rfl
    | cons t l =>
      have habs := isAbsolute_eq_false hs []
      rw [List.append_nil] at habs
      have htail := isAbsolute_joinSlashes (by simp) hl
      rw [ih (join_ne_nil hr hs) (by simp) hl, join_eq (join_ne_nil hr hs) htail,
        gap_join hr hs, join_eq hr habs, join_eq hr (isAbsolute_joinSlashes (by simp) h)]
      have hjoin : joinSlashes (s :: t :: l) = s ++ slash :: joinSlashes (t :: l) := rfl
      rw [hjoin]
      simp only [List.append_assoc, List.singleton_append]

/-! ### Segments and components -/

/-- The segments of a path without the empty one after a slash at its back. -/
def stem (p : Path) : List Bytes :=
  if p.bytes.getLast? = some slash then p.segments.dropLast else p.segments

theorem segments_eq_stem (p : Path) : p.segments = p.stem ∨ p.segments = p.stem ++ [[]] := by
  unfold stem
  split
  · next hl =>
    obtain ⟨front, hf⟩ := List.getLast?_eq_some_iff.1 hl
    right
    have hs : p.segments = splitSlashes front ++ [[]] := by
      unfold segments
      rw [hf, splitSlashes_append_slash]
      rfl
    rw [hs, List.dropLast_concat]
  · exact .inl rfl

theorem segments_join (hr : root.bytes ≠ []) (hne : names ≠ []) (h : ∀ s ∈ names, IsName s) :
    (root.join (joinSlashes names)).segments = root.stem ++ names := by
  have hnames : splitSlashes (joinSlashes names) = names :=
    segments_ofSegments hne fun s hs => (h s hs).no_slash
  rw [join_eq hr (isAbsolute_joinSlashes hne h)]
  unfold gap stem segments
  split
  · next hl =>
    obtain ⟨front, hf⟩ := List.getLast?_eq_some_iff.1 hl
    simp only [List.append_nil, hf, List.append_assoc, List.singleton_append,
      splitSlashes_append_slash, hnames]
    rw [show splitSlashes [] = [[]] from rfl, List.dropLast_concat]
  · rw [List.append_assoc, List.singleton_append, splitSlashes_append_slash, hnames]

/-- The component of the first segment. -/
def lead (s : Bytes) : Component :=
  if s = [] then .root else if s = [dot] then .here else component s

theorem inner_append (l m : List Bytes) : inner (l ++ m) = inner l ++ inner m := by
  unfold inner
  rw [List.filter_append, List.map_append]

theorem inner_cons (l : List Bytes) :
    inner (s :: l) = if counts s then component s :: inner l else inner l := by
  unfold inner
  rw [List.filter_cons]
  split <;> rfl

theorem components_of_segments {p : Path} {l : List Bytes} (h : p.segments = s :: l)
    (hs : s ≠ [] ∨ l ≠ []) : p.components = lead s :: inner l := by
  unfold components lead
  rw [h]
  by_cases h₁ : s = []
  · subst h₁
    cases l with
    | nil => simp at hs
    | cons t l => rfl
  · by_cases h₂ : s = [dot]
    · subst h₂
      cases l <;> rfl
    · have hc : counts s = true := by simp [counts, h₁, h₂]
      cases l with
      | nil => simp [h₁, h₂, inner_cons, hc]
      | cons t l => simp [h₁, h₂, inner_cons, hc]

theorem segments_ne_nil (p : Path) : p.segments ≠ [] := splitSlashes_ne_nil _

theorem bytes_of_segments {p : Path} (h : p.segments = [[]]) : p.bytes = [] := by
  unfold segments at h
  cases hs : p.bytes with
  | nil => rfl
  | cons b s =>
    rw [hs, splitSlashes] at h
    split at h
    · rw [List.cons.injEq] at h
      exact absurd h.2 (splitSlashes_ne_nil s)
    · cases hcs : splitSlashes s with
      | nil => exact absurd hcs (splitSlashes_ne_nil s)
      | cons t l => simp [hcs] at h

/-- A path that is not empty has a first segment, after which its components are as expected. -/
theorem exists_stem (hr : root.bytes ≠ []) :
    ∃ s l, root.stem = s :: l ∧ root.components = lead s :: inner l := by
  rcases segments_eq_stem root with h | h
  · cases hst : root.stem with
    | nil => exact absurd (h.trans hst) root.segments_ne_nil
    | cons s l =>
      refine ⟨s, l, rfl, components_of_segments (h.trans hst) ?_⟩
      by_contra hc
      rw [not_or, not_not, not_not] at hc
      rw [hst, hc.1, hc.2] at h
      exact hr (bytes_of_segments h)
  · cases hst : root.stem with
    | nil =>
      rw [hst] at h
      exact absurd (bytes_of_segments h) hr
    | cons s l =>
      refine ⟨s, l, rfl, ?_⟩
      rw [hst, List.cons_append] at h
      rw [components_of_segments h (.inr (by simp)), inner_append,
        show inner [[]] = [] from rfl, List.append_nil]

theorem joinSlashes_splitSlashes (b : Bytes) : joinSlashes (splitSlashes b) = b := by
  induction b with
  | nil => rfl
  | cons x b ih =>
    unfold splitSlashes
    split
    · next hx => rw [joinSlashes_cons (splitSlashes_ne_nil b), ih, hx, List.nil_append]
    · cases hs : splitSlashes b with
      | nil => exact absurd hs (splitSlashes_ne_nil b)
      | cons s l =>
        rw [hs] at ih
        cases l with
        | nil => rw [joinSlashes_singleton, ← ih, joinSlashes_singleton]
        | cons t l =>
          rw [joinSlashes_cons (by simp), List.cons_append, ← joinSlashes_cons (by simp), ih]

theorem slash_not_mem_of_mem_splitSlashes {b s : Bytes} (h : s ∈ splitSlashes b) : slash ∉ s := by
  induction b generalizing s with
  | nil =>
    rw [List.mem_singleton.1 h]
    simp
  | cons x b ih =>
    unfold splitSlashes at h
    split at h
    · rcases List.mem_cons.1 h with rfl | h
      · simp
      · exact ih h
    · next hx =>
      cases hs : splitSlashes b with
      | nil => exact absurd hs (splitSlashes_ne_nil b)
      | cons t l =>
        rw [hs] at h ih
        rcases List.mem_cons.1 h with rfl | h
        · exact List.not_mem_cons_of_ne_of_not_mem (Ne.symm hx) (ih (by simp))
        · exact ih (List.mem_cons_of_mem _ h)

/-- Every path is made up of segments without slashes. -/
theorem exists_segments (p : Path) :
    ∃ l, l ≠ [] ∧ (∀ s ∈ l, slash ∉ s) ∧ p = ofSegments l :=
  ⟨p.segments, p.segments_ne_nil, fun _ => slash_not_mem_of_mem_splitSlashes,
    congrArg mk (joinSlashes_splitSlashes p.bytes).symm⟩

/-! ### Extensions -/

theorem splitExtension_of_dot {front e : Bytes} (hfront : front ≠ []) (hdot : dot ∉ e) :
    splitExtension (front ++ dot :: e) = (front, some e) := by
  have hrev : (front ++ dot :: e).reverse = e.reverse ++ dot :: front.reverse := by simp
  have hall : ∀ c ∈ e.reverse, (c != dot) = true := by
    intro c hc
    rw [bne_iff_ne]
    rintro rfl
    exact hdot (List.mem_reverse.1 hc)
  simp only [splitExtension]
  rw [hrev, List.takeWhile_append_of_pos hall, List.dropWhile_append_of_pos hall,
    List.takeWhile_cons_of_neg (by simp), List.dropWhile_cons_of_neg (by simp),
    List.append_nil, List.reverse_reverse]
  cases hr : front.reverse with
  | nil => exact absurd (List.reverse_eq_nil_iff.1 hr) hfront
  | cons c cs => simp only [← hr, List.reverse_reverse]

/-- A name has no extension, or it is put together from a front, a dot and the extension. -/
theorem splitExtension_cases (name : Bytes) : splitExtension name = (name, none) ∨
    ∃ front e, name = front ++ dot :: e ∧ front ≠ [] ∧ dot ∉ e ∧
      splitExtension name = (front, some e) := by
  cases hd : name.reverse.dropWhile (· != dot) with
  | nil => exact .inl (by simp only [splitExtension, hd])
  | cons c before =>
    cases before with
    | nil => exact .inl (by simp only [splitExtension, hd])
    | cons b before =>
      have hsplit := List.takeWhile_append_dropWhile (p := (· != dot)) (l := name.reverse)
      have hc : c = dot := by
        have := List.head?_dropWhile_not (· != dot) name.reverse
        rw [hd] at this
        simpa using this
      have hdot : dot ∉ (name.reverse.takeWhile (· != dot)).reverse := by
        rw [List.mem_reverse]
        intro hdot
        simpa using List.all_eq_true.1 List.all_takeWhile _ hdot
      rw [hd, hc] at hsplit
      have hname : name = (b :: before).reverse ++
          dot :: (name.reverse.takeWhile (· != dot)).reverse := by
        conv_lhs => rw [← List.reverse_reverse name, ← hsplit]
        simp
      refine .inr ⟨_, _, hname, by simp, hdot, ?_⟩
      simp only [splitExtension, hd]

/-! ### Names of a path -/

theorem name_mem_inner {l : List Bytes} :
    .name s ∈ inner l ↔ s ∈ l ∧ counts s = true ∧ s ≠ [dot, dot] := by
  unfold inner
  simp only [List.mem_map, List.mem_filter, component, beq_iff_eq]
  constructor
  · rintro ⟨t, ⟨hmem, hcounts⟩, hname⟩
    split at hname
    · cases hname
    · next hup =>
      cases hname
      exact ⟨hmem, hcounts, hup⟩
  · rintro ⟨hmem, hcounts, hup⟩
    exact ⟨s, ⟨hmem, hcounts⟩, if_neg hup⟩

theorem lead_eq_name {t : Bytes} :
    lead t = .name s ↔ t = s ∧ counts s = true ∧ s ≠ [dot, dot] := by
  unfold lead component
  split
  · next h =>
    refine iff_of_false (fun hc => by cases hc) ?_
    rintro ⟨rfl, hcounts, -⟩
    simp [counts, h] at hcounts
  · split
    · next h =>
      refine iff_of_false (fun hc => by cases hc) ?_
      rintro ⟨rfl, hcounts, -⟩
      simp [counts, h] at hcounts
    · split
      · next h =>
        refine iff_of_false (fun hc => by cases hc) ?_
        rintro ⟨rfl, -, hup⟩
        exact hup (eq_of_beq h)
      · next hnil hdot hup =>
        rw [Component.name.injEq]
        refine ⟨?_, And.left⟩
        rintro rfl
        exact ⟨rfl, by simp [counts, hnil, hdot], by simpa using hup⟩

theorem name_mem_components {p : Path} :
    .name s ∈ p.components ↔ s ∈ p.segments ∧ counts s = true ∧ s ≠ [dot, dot] := by
  cases hseg : p.segments with
  | nil => exact absurd hseg p.segments_ne_nil
  | cons t l =>
    by_cases hempty : t = [] ∧ l = []
    · obtain ⟨rfl, rfl⟩ := hempty
      unfold components
      rw [hseg]
      exact name_mem_inner
    · rw [components_of_segments hseg (by simpa [or_iff_not_imp_left] using hempty), List.mem_cons,
        name_mem_inner, List.mem_cons, eq_comm, lead_eq_name]
      tauto

/-- A path is a text if its names are. -/
theorem isText_iff_components {p : Path} :
    p.bytes.IsText ↔ ∀ s, .name s ∈ p.components → s.IsText := by
  rw [← joinSlashes_splitSlashes p.bytes, isText_joinSlashes]
  refine ⟨fun h s hs => h s (name_mem_components.1 hs).1, fun h s hs => ?_⟩
  by_cases hname : counts s = true ∧ s ≠ [dot, dot]
  · exact h s (name_mem_components.2 ⟨hs, hname⟩)
  · have hdots : s = [] ∨ s = [dot] ∨ s = [dot, dot] := by
      simpa [counts, or_iff_not_imp_left] using hname
    rcases hdots with rfl | rfl | rfl <;> decide

theorem isText_congr {p q : Path} (h : p.same q = true) : p.bytes.IsText ↔ q.bytes.IsText := by
  rw [isText_iff_components, isText_iff_components, eq_of_beq h]

/-- Names below a path are what is added to its components. -/
theorem components_join (hr : root.bytes ≠ []) (hne : names ≠ []) (h : ∀ s ∈ names, IsName s) :
    (root.join (joinSlashes names)).components = root.components ++ names.map .name := by
  obtain ⟨s, l, hstem, hc⟩ := exists_stem hr
  have hseg := segments_join hr hne h
  rw [hstem, List.cons_append] at hseg
  rw [components_of_segments hseg (.inr (by simp [hne])), inner_append, hc, Disk.inner_eq h]
  rfl

/-! ### Relative paths -/

theorem trimSegments_cons_of_not_counts (hs : counts s = false) (l : List Bytes) :
    trimSegments (s :: l) = trimSegments l := by
  unfold trimSegments
  rw [List.dropWhile_cons_of_pos (by simp [hs])]

theorem trimSegments_afterComponents (l : List Bytes) (h : ∀ s ∈ names, IsName s) :
    trimSegments (afterComponents (inner l) (l ++ names)) = names := by
  induction l with
  | nil => exact Disk.trimSegments_eq_self h
  | cons s l ih =>
    rw [inner_cons, List.cons_append]
    by_cases hs : counts s = true
    · rw [if_pos hs, afterComponents, afterFirst, if_pos hs]
      exact ih
    · rw [if_neg hs]
      -- a segment that does not count is passed over, or trimmed if no component follows
      cases hi : inner l with
      | nil =>
        rw [hi] at ih
        rw [afterComponents, trimSegments_cons_of_not_counts (by simpa using hs)]
        exact ih
      | cons c cs =>
        rw [hi, afterComponents] at ih
        rw [afterComponents, afterFirst, if_neg hs]
        exact ih

theorem stripPrefix?_join (hr : root.bytes ≠ []) (hne : names ≠ []) (h : ∀ s ∈ names, IsName s) :
    (root.join (joinSlashes names)).stripPrefix? root = some (ofSegments names) := by
  obtain ⟨s, l, hstem, hc⟩ := exists_stem hr
  have hseg := segments_join hr hne h
  have htrim := trimSegments_afterComponents l h
  rw [hstem, List.cons_append] at hseg
  unfold stripPrefix?
  rw [components_join hr hne h, if_pos (by rw [List.isPrefixOf_iff_prefix]; simp), hc, hseg]
  unfold lead component
  by_cases h₁ : s = []
  · simp only [h₁, if_true, htrim]
  · by_cases h₂ : s = [dot]
    · subst h₂
      simp [htrim]
    · have hcount : counts s = true := by simp [counts, h₁, h₂]
      by_cases h₃ : s = [dot, dot]
      · subst h₃
        simp [afterComponents, afterFirst, hcount, htrim]
      · simp [h₁, h₂, h₃, afterComponents, afterFirst, hcount, htrim]

/-- A path below another one, relative to it. -/
theorem relativeTo_join (hr : root.bytes ≠ []) (hne : names ≠ []) (h : ∀ s ∈ names, IsName s) :
    (root.join (joinSlashes names)).relativeTo root = slashed (joinSlashes names).lossy := by
  unfold relativeTo
  rw [stripPrefix?_join hr hne h, Option.getD_some]
  rfl

/-! ### Back from the relative path -/

theorem exists_bytes_join (hr : root.bytes ≠ []) :
    ∃ front, ∀ {t : Bytes}, isAbsolute ⟨t⟩ = false → root.join t = ⟨front ++ slash :: t⟩ := by
  by_cases hl : root.bytes.getLast? = some slash
  · refine ⟨root.bytes.dropLast, fun ht => ?_⟩
    have hfront : root.bytes = root.bytes.dropLast ++ [slash] :=
      (List.dropLast_append_getLast? _ hl).symm
    rw [join_eq hr ht, gap, if_pos hl, List.append_nil]
    conv_lhs => rw [hfront]
    rw [List.append_assoc, List.singleton_append]
  · refine ⟨root.bytes, fun ht => ?_⟩
    rw [join_eq hr ht, gap, if_neg hl, List.append_assoc, List.singleton_append]

/-- What is shown of a path is absolute only if the path is. -/
theorem isAbsolute_bytes_lossy (t : Bytes) :
    isAbsolute ⟨Text.bytes t.lossy⟩ = isAbsolute ⟨t⟩ := by
  have hhead (b : Bytes) : b.lossy.toList.head? = some '/' ↔ b.head? = some slash := by
    rw [Bytes.toList_lossy]
    exact Bytes.head?_charsFrom (x := slash) (by decide)
  have h := hhead (Text.bytes t.lossy)
  rw [Bytes.lossy_bytes, hhead] at h
  unfold isAbsolute
  rw [Bool.eq_iff_iff, beq_iff_eq, beq_iff_eq]
  exact h.symm

/-- What is shown of a path below a root shows what follows the root. -/
theorem lossy_eq_of_text_join {t u : Bytes} (hr : root.bytes ≠ []) (ht : isAbsolute ⟨t⟩ = false)
    (hu : isAbsolute ⟨u⟩ = false) (he : (root.join t).text = (root.join u).text) :
    t.lossy = u.lossy := by
  obtain ⟨front, hjoin⟩ := exists_bytes_join hr
  have hchars := congrArg String.toList he
  simp only [hjoin ht, hjoin hu, text, Bytes.toList_lossy,
    Bytes.charsFrom_append_ascii (x := slash) (by decide), List.append_cancel_left_eq,
    List.cons.injEq, true_and] at hchars
  exact congrArg String.ofList hchars

/-- The relative path of a path without backslashes leads back to what is shown of it, and to the
path itself exactly if what follows the root is a text. -/
theorem join_relativeTo (hr : root.bytes ≠ []) (hne : names ≠ []) (h : ∀ s ∈ names, IsName s)
    (hb : NoBackslash (root.join (joinSlashes names)).bytes) :
    let q := root.join (joinSlashes names)
    (root.join (q.relativeTo root)).text = q.text ∧
      (root.join (q.relativeTo root) = q ↔ ((q.stripPrefix? root).getD q).bytes.IsText) := by
  intro q
  obtain ⟨front, hjoin⟩ := exists_bytes_join hr
  have habs := isAbsolute_joinSlashes hne h
  have hq : q = ⟨front ++ slash :: joinSlashes names⟩ := hjoin habs
  have hplain : NoBackslash (joinSlashes names) := by
    intro hm
    refine hb ?_
    rw [hjoin habs]
    simp [hm]
  have hrest : (q.stripPrefix? root).getD q = ⟨joinSlashes names⟩ := by
    rw [stripPrefix?_join hr hne h]
    rfl
  have hback : root.join (q.relativeTo root) =
      ⟨front ++ slash :: Text.bytes (joinSlashes names).lossy⟩ := by
    rw [relativeTo_join hr hne h, Disk.slashed_lossy hplain]
    exact hjoin ((isAbsolute_bytes_lossy _).trans habs)
  rw [hrest, hback, hq]
  constructor
  · apply String.toList_injective
    simp only [text, Bytes.toList_lossy, Bytes.charsFrom_append_ascii (x := slash) (by decide)]
    rw [← Bytes.toList_lossy (Text.bytes _), Bytes.lossy_bytes, Bytes.toList_lossy]
  · rw [Bytes.isText_iff, Path.mk.injEq, List.append_cancel_left_eq, List.cons.injEq]
    exact and_iff_right rfl

end Path

/-! ### The order of paths -/

/-- Comparing lists item by item gives the lexicographic order. -/
theorem lexLe_iff {α : Type} [DecidableEq α] {le : α → α → Bool} {before : α → α → Prop}
    [Std.Asymm before] (h : ∀ a b, a ≠ b → (le a b = true ↔ before a b)) (l m : List α) :
    lexLe le l m = true ↔ List.Lex before l m ∨ l = m := by
  induction l generalizing m with
  | nil => cases m <;> simp [lexLe]
  | cons a l ih =>
    cases m with
    | nil => simp [lexLe]
    | cons b m =>
      rw [lexLe]
      by_cases hab : a = b
      · subst hab
        rw [if_pos rfl, ih, List.lex_cons_iff, List.cons.injEq, and_iff_right rfl]
      · rw [if_neg hab, h a b hab]
        constructor
        · exact fun hr => .inl (.rel hr)
        · rintro (hl | he)
          · cases hl with
            | rel hr => exact hr
            | cons hl => exact absurd rfl hab
          · cases he
            exact absurd rfl hab

/-- A name comes before another one, byte by byte. -/
abbrev Bytes.Before : Bytes → Bytes → Prop := List.Lex fun a b => a < b

/-- A component comes before another one: its sort does, or both are names, the other with greater
bytes. -/
inductive Component.Before : Component → Component → Prop
  | sort {a b : Component} (h : a.rank < b.rank) : Before a b
  | name {s t : Bytes} (h : s.Before t) : Before (.name s) (.name t)

/-- A path comes before another one in the lexicographic order of components. -/
def Path.Before (p q : Path) : Prop := List.Lex Component.Before p.components q.components

namespace Component

instance : Std.Asymm Before where
  asymm a b hab hba := by
    cases hab with
    | sort h =>
      cases hba with
      | sort h' => omega
      | name h' => simp [rank] at h
    | name h =>
      cases hba with
      | sort h' => simp [rank] at h'
      | name h' => exact Std.Asymm.asymm _ _ h h'

instance : Std.Trichotomous Before where
  trichotomous a b hab hba := by
    have h₁ : ¬a.rank < b.rank := fun h => hab (.sort h)
    have h₂ : ¬b.rank < a.rank := fun h => hba (.sort h)
    cases a <;> cases b <;> simp [rank] at h₁ h₂ ⊢
    · next s t =>
      exact Std.Trichotomous.trichotomous s t (fun h => hab (.name h)) fun h => hba (.name h)

theorem Before.trans {a b c : Component} (hab : Before a b) (hbc : Before b c) : Before a c := by
  cases hab with
  | sort h =>
    cases hbc with
    | sort h' => exact .sort (h.trans h')
    | name h' => exact .sort h
  | name h =>
    cases hbc with
    | sort h' => exact .sort h'
    | name h' => exact .name (List.lex_trans (fun h h' => UInt8.lt_trans h h') h h')

theorem name_le_iff {s t : Bytes} (h : s ≠ t) :
    (name s).le (name t) = true ↔ Before (name s) (name t) := by
  have hbyte : ∀ x y : UInt8, x ≠ y → (decide (x ≤ y) = true ↔ x < y) := fun x y hne => by
    rw [decide_eq_true_eq, UInt8.le_iff_lt_or_eq, or_iff_left hne]
  have hlex := lexLe_iff hbyte s t
  rw [or_iff_left h] at hlex
  refine hlex.trans ⟨.name, ?_⟩
  rintro (hr | hs)
  · exact absurd hr (Nat.lt_irrefl 3)
  · exact hs

theorem le_iff {a b : Component} (h : a ≠ b) : a.le b = true ↔ Before a b := by
  by_cases hr : a.rank = b.rank
  · -- of the components of one sort only names differ
    have hnames : ∃ s t, a = .name s ∧ b = .name t := by
      cases a <;> cases b <;> simp_all [rank]
    obtain ⟨s, t, rfl, rfl⟩ := hnames
    exact name_le_iff fun he => h (congrArg name he)
  · have hle : a.le b = true ↔ a.rank ≤ b.rank := by
      cases a <;> cases b <;> simp_all [le, rank]
    rw [hle]
    constructor
    · exact fun hab => .sort (by omega)
    · rintro (hab | hab)
      · omega
      · exact absurd rfl hr

end Component

namespace Path

variable {p q r : Path}

/-- The order of paths is the lexicographic one of their components. -/
theorem le_iff : p.le q = true ↔ p.Before q ∨ p.components = q.components :=
  lexLe_iff (fun _ _ => Component.le_iff) _ _

theorem Before.trans (hpq : p.Before q) (hqr : q.Before r) : p.Before r :=
  List.lex_trans (fun h h' => Component.Before.trans h h') hpq hqr

theorem le_trans (hpq : p.le q = true) (hqr : q.le r = true) : p.le r = true := by
  rw [le_iff] at hpq hqr ⊢
  unfold Before at hpq hqr ⊢
  rcases hpq with hpq | hpq
  · rcases hqr with hqr | hqr
    · exact .inl (Before.trans hpq hqr)
    · exact .inl (hqr ▸ hpq)
  · rw [hpq]
    exact hqr

theorem le_total (p q : Path) : (p.le q || q.le p) = true := by
  rw [Bool.or_eq_true, le_iff, le_iff]
  by_contra h
  simp only [not_or] at h
  exact h.1.2 (Std.Trichotomous.trichotomous _ _ h.1.1 h.2.1)

/-- Paths that differ in their components are sorted strictly. -/
theorem pairwise_before_mergeSort {l : List Path} (h : (l.map components).Nodup) :
    (l.mergeSort le).Pairwise Before := by
  have hs := List.pairwise_mergeSort (fun a b c => le_trans (p := a) (q := b) (r := c)) le_total l
  have hn : ((l.mergeSort le).map components).Nodup :=
    ((List.mergeSort_perm l le).map components).nodup_iff.2 h
  refine (hs.and (List.pairwise_map.1 hn)).imp ?_
  rintro a b ⟨hle, hne⟩
  exact (le_iff.1 hle).resolve_right hne

end Path

end SignalAtlas
