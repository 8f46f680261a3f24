import Mathlib.Tactic
import SignalAtlas.Project.Discovery
import SignalAtlas.Project.Store
import SignalAtlas.Proofs.Bindings
import SignalAtlas.Proofs.Encodings

/-!
# Paths of places

A *place* is a location whose names are proper file names: not empty, not dots, without slashes.
`Disk.pathOf` writes it as an absolute path, and the operations on paths act on what is written as
the corresponding ones on lists act on the names:

* `segments_pathOf`, `components_pathOf`: the names can be read back;
* `join_pathOf`, `parent?_pathOf`: joining and taking the parent;
* `relativeTo_pathOf`: a path relative to a place above it;
* `temporary_pathOf`: the temporary file beside a file.

What is shown of a place tells it only if its names are *plain*, that is texts without backslashes
(`ofText_text_pathOf`, `lossy_joinSlashes_inj`).
-/

namespace SignalAtlas

/-- Whether bytes can name a file in a folder. -/
def IsName (s : Bytes) : Prop := s ≠ [] ∧ s ≠ [dot] ∧ s ≠ [dot, dot] ∧ slash ∉ s

instance decidableIsName (s : Bytes) : Decidable (IsName s) :=
  inferInstanceAs (Decidable (_ ∧ _ ∧ _ ∧ _))

namespace IsName

variable {s : Bytes}

theorem ne_nil (h : IsName s) : s ≠ [] := h.1

theorem no_slash (h : IsName s) : slash ∉ s := h.2.2.2

theorem counts (h : IsName s) : Path.counts s = true := by
  simp [Path.counts, h.1, h.2.1]

theorem component (h : IsName s) : Path.component s = .name s := by
  simp [Path.component, h.2.2.1]

end IsName

/-- Bytes without backslashes. -/
def NoBackslash (s : Bytes) : Prop := backslash ∉ s

instance decidableNoBackslash (s : Bytes) : Decidable (NoBackslash s) :=
  inferInstanceAs (Decidable (_ ∉ _))

/-- A name that a relative path shows as it is: a text without backslashes. -/
structure IsPlain (s : Bytes) : Prop where
  isText : s.IsText
  noBackslash : NoBackslash s

instance decidableIsPlain (s : Bytes) : Decidable (IsPlain s) :=
  decidable_of_iff (s.IsText ∧ NoBackslash s) ⟨fun h => ⟨h.1, h.2⟩, fun h => ⟨h.1, h.2⟩⟩

/-! ### Segments -/

theorem splitSlashes_append {s : Bytes} (h : slash ∉ s) (t : Bytes) :
    splitSlashes (s ++ slash :: t) = s :: splitSlashes t := by
  induction s with
  | nil => simp [splitSlashes]
  | cons b s ih =>
    rw [List.mem_cons, not_or] at h
    rw [List.cons_append, splitSlashes, if_neg (Ne.symm h.1), ih h.2]

theorem splitSlashes_of_not_mem {s : Bytes} (h : slash ∉ s) : splitSlashes s = [s] := by
  induction s with
  | nil => rfl
  | cons b s ih =>
    rw [List.mem_cons, not_or] at h
    rw [splitSlashes, if_neg (Ne.symm h.1), ih h.2]

@[simp] theorem joinSlashes_singleton (s : Bytes) : joinSlashes [s] = s := rfl

theorem joinSlashes_cons {s : Bytes} {l : List Bytes} (h : l ≠ []) :
    joinSlashes (s :: l) = s ++ slash :: joinSlashes l := by
  cases l with
  | nil => exact absurd rfl h
  | cons t l => rfl

theorem joinSlashes_append {l m : List Bytes} (hl : l ≠ []) (hm : m ≠ []) :
    joinSlashes (l ++ m) = joinSlashes l ++ slash :: joinSlashes m := by
  induction l with
  | nil => exact absurd rfl hl
  | cons s l ih =>
    cases l with
    | nil => exact joinSlashes_cons hm
    | cons t l =>
      have hl : joinSlashes (s :: t :: l) = s ++ slash :: joinSlashes (t :: l) := rfl
      rw [List.cons_append, joinSlashes_cons (by simp), ih (by simp), hl, List.append_assoc,
        List.cons_append]

theorem isText_joinSlashes {l : List Bytes} :
    (joinSlashes l).IsText ↔ ∀ s ∈ l, s.IsText := by
  induction l with
  | nil => exact iff_of_true (Bytes.isText_bytes "") (by simp)
  | cons s l ih =>
    cases l with
    | nil => simp
    | cons t l =>
      rw [joinSlashes_cons (by simp), Bytes.isText_append_ascii (by decide), ih,
        List.forall_mem_cons (l := t :: l)]

theorem noBackslash_joinSlashes {l : List Bytes} :
    NoBackslash (joinSlashes l) ↔ ∀ s ∈ l, NoBackslash s := by
  induction l with
  | nil => simp [joinSlashes, NoBackslash]
  | cons s l ih =>
    cases l with
    | nil => simp
    | cons t l =>
      have hne : backslash ≠ slash := by decide
      rw [joinSlashes_cons (by simp), List.forall_mem_cons, ← ih]
      simp [NoBackslash, hne]

namespace Path

/-- Segments without slashes can be read back. -/
theorem segments_ofSegments {l : List Bytes} (hne : l ≠ []) (h : ∀ s ∈ l, slash ∉ s) :
    (ofSegments l).segments = l := by
  unfold segments ofSegments
  induction l with
  | nil => exact absurd rfl hne
  | cons s l ih =>
    have hs := h s (by simp)
    cases l with
    | nil => exact splitSlashes_of_not_mem hs
    | cons t l =>
      rw [joinSlashes_cons (by simp), splitSlashes_append hs,
        ih (by simp) fun u hu => h u (List.mem_cons_of_mem _ hu)]

theorem trimBack_eq_self {l : List Bytes} (h : ∀ s, l.getLast? = some s → counts s = true) :
    trimBack l = l := by
  unfold trimBack
  cases hr : l.reverse with
  | nil => simp_all
  | cons s r =>
    have hl : l.getLast? = some s := by
      rw [← List.head?_reverse, hr]; rfl
    rw [List.dropWhile_cons_of_neg (by simp [h s hl]), ← hr, List.reverse_reverse]

end Path

namespace Disk

variable {loc names : Location} {name : Bytes}

theorem isName_concat (h : ∀ s ∈ loc, IsName s) (hn : IsName name) :
    ∀ s ∈ loc ++ [name], IsName s := by
  intro s hs
  rcases List.mem_append.1 hs with hs | hs
  · exact h s hs
  · rw [List.mem_singleton.1 hs]
    exact hn

theorem pathOf_cons (hl : loc ≠ []) : pathOf loc = Path.ofSegments ([] :: loc) := by
  unfold pathOf Path.ofSegments
  rw [joinSlashes_cons hl]
  rfl

theorem segments_pathOf (hl : loc ≠ []) (h : ∀ s ∈ loc, IsName s) :
    (pathOf loc).segments = [] :: loc := by
  rw [pathOf_cons hl]
  refine Path.segments_ofSegments (by simp) fun s hs => ?_
  rcases List.mem_cons.1 hs with rfl | hs
  · simp
  · exact (h s hs).no_slash

theorem isAbsolute_pathOf (loc : Location) : (pathOf loc).isAbsolute = true := by
  simp [Path.isAbsolute, pathOf]

theorem steps_pathOf (hl : loc ≠ []) (h : ∀ s ∈ loc, IsName s) : steps (pathOf loc) = loc := by
  rw [steps, if_pos (isAbsolute_pathOf loc), segments_pathOf hl h]
  rfl

theorem inner_eq (h : ∀ s ∈ loc, IsName s) : Path.inner loc = loc.map .name := by
  unfold Path.inner
  rw [List.filter_eq_self.2 fun s hs => (h s hs).counts]
  exact List.map_congr_left fun s hs => (h s hs).component

theorem components_pathOf (h : ∀ s ∈ loc, IsName s) :
    (pathOf loc).components = .root :: loc.map .name := by
  cases loc with
  | nil => decide
  | cons s l =>
    unfold Path.components
    rw [segments_pathOf (by simp) h]
    simp [inner_eq h]

theorem pathOf_inj {m : Location} (hl : ∀ s ∈ loc, IsName s) (hm : ∀ s ∈ m, IsName s)
    (h : pathOf loc = pathOf m) : loc = m := by
  have hc := congrArg Path.components h
  rw [components_pathOf hl, components_pathOf hm, List.cons.injEq] at hc
  exact List.map_injective_iff.2 (fun a b hab => by cases hab; rfl) hc.2

theorem same_pathOf {m : Location} (hl : ∀ s ∈ loc, IsName s) (hm : ∀ s ∈ m, IsName s) :
    (pathOf loc).same (pathOf m) = true ↔ loc = m := by
  unfold Path.same
  rw [beq_iff_eq, components_pathOf hl, components_pathOf hm]
  constructor
  · intro h
    exact List.map_injective_iff.2 (fun a b hab => by cases hab; rfl) (List.cons.inj h).2
  · rintro rfl; rfl

/-! ### Joining and taking apart -/

theorem bytes_pathOf_append (hl : loc ≠ []) (hn : names ≠ []) :
    (pathOf (loc ++ names)).bytes = (pathOf loc).bytes ++ slash :: joinSlashes names := by
  unfold pathOf
  rw [joinSlashes_append hl hn]
  rfl

theorem getLast?_pathOf (hl : loc ≠ []) (h : ∀ s ∈ loc, IsName s) :
    (pathOf loc).bytes.getLast? ≠ some slash := by
  obtain ⟨front, last, rfl⟩ := (List.eq_nil_or_concat' loc).resolve_left hl
  have hlast := h last (by simp)
  have hbytes : ∃ before, (pathOf (front ++ [last])).bytes = before ++ last := by
    cases front with
    | nil => exact ⟨[slash], rfl⟩
    | cons s l =>
      refine ⟨(pathOf (s :: l)).bytes ++ [slash], ?_⟩
      rw [bytes_pathOf_append (by simp) (by simp), joinSlashes_singleton, List.append_assoc,
        List.singleton_append]
  obtain ⟨before, hb⟩ := hbytes
  rw [hb, List.getLast?_append_of_ne_nil _ hlast.ne_nil]
  intro hc
  exact hlast.no_slash (List.mem_of_getLast? hc)

theorem join_pathOf (h : ∀ s ∈ loc, IsName s) (hn : IsName name) :
    (pathOf loc).join name = pathOf (loc ++ [name]) := by
  have habs : Path.isAbsolute ⟨name⟩ = false := by
    unfold Path.isAbsolute
    rw [beq_eq_false_iff_ne]
    intro hc
    exact hn.no_slash (List.mem_of_mem_head? hc)
  have hne : ((pathOf loc).bytes == []) = false := rfl
  unfold Path.join
  rw [habs, hne]
  cases loc with
  | nil => rfl
  | cons s l =>
    have hlast := getLast?_pathOf (by simp) h
    rw [if_neg (by simp), if_neg (by simpa using hlast)]
    exact congrArg Path.mk (@bytes_pathOf_append (s :: l) [name] (by simp) (by simp)).symm

theorem pathBelow_pathOf (h : ∀ s ∈ loc, IsName s) (hn : ∀ s ∈ names, IsName s) :
    Discovery.pathBelow (pathOf loc) names = pathOf (loc ++ names) := by
  unfold Discovery.pathBelow
  induction names generalizing loc with
  | nil => rw [List.foldl_nil, List.append_nil]
  | cons s l ih =>
    have hs : ∀ t ∈ loc ++ [s], IsName t := by
      intro t ht
      rcases List.mem_append.1 ht with ht | ht
      · exact h t ht
      · rw [List.mem_singleton.1 ht]; exact hn s (by simp)
    rw [List.foldl_cons, join_pathOf h (hn s (by simp)),
      ih hs fun t ht => hn t (List.mem_cons_of_mem _ ht), List.append_assoc]
    rfl

theorem splitLast?_pathOf (h : ∀ s ∈ loc, IsName s) (hn : IsName name) :
    (pathOf (loc ++ [name])).splitLast? = some ([] :: loc, name) := by
  have hall := isName_concat h hn
  unfold Path.splitLast?
  rw [segments_pathOf (by simp) hall, Path.trimBack_eq_self]
  · simp only [← List.cons_append, List.getLast?_concat, List.dropLast_concat]
  · intro s hs
    rw [← List.cons_append, List.getLast?_concat] at hs
    cases hs
    exact hn.counts

theorem parent?_pathOf (h : ∀ s ∈ loc, IsName s) (hn : IsName name) :
    (pathOf (loc ++ [name])).parent? = some (pathOf loc) := by
  unfold Path.parent?
  rw [splitLast?_pathOf h hn]
  unfold Path.ofFront
  cases hloc : loc with
  | nil => rfl
  | cons s l =>
    have ht : Path.trimBack (s :: l) = s :: l := by
      apply Path.trimBack_eq_self
      intro t ht
      exact (h t (by rw [hloc]; exact List.mem_of_getLast? ht)).counts
    simp only [ht, List.isEmpty_cons, Bool.false_eq_true, if_false]
    rw [pathOf_cons (by simp)]

/-! ### Relative paths -/

theorem afterComponents_append (h : ∀ s ∈ loc, IsName s) (l : List Bytes) (cs : List Component)
    (hc : cs.length = loc.length) : Path.afterComponents cs (loc ++ l) = l := by
  induction loc generalizing cs with
  | nil => cases cs <;> simp_all [Path.afterComponents]
  | cons s m ih =>
    cases cs with
    | nil => simp at hc
    | cons c cs =>
      rw [List.cons_append, Path.afterComponents, Path.afterFirst, if_pos (h s (by simp)).counts]
      exact ih (fun t ht => h t (List.mem_cons_of_mem _ ht)) cs (by simpa using hc)

theorem trimSegments_eq_self (h : ∀ s ∈ names, IsName s) : Path.trimSegments names = names := by
  unfold Path.trimSegments
  have hd : (names.dropWhile fun s => !Path.counts s) = names := by
    cases names with
    | nil => rfl
    | cons s l => rw [List.dropWhile_cons_of_neg (by simp [(h s (by simp)).counts])]
  rw [hd, Path.trimBack_eq_self fun s hs => (h s (List.mem_of_getLast? hs)).counts]

theorem stripPrefix?_pathOf (h : ∀ s ∈ loc, IsName s) (hn : ∀ s ∈ names, IsName s)
    (hne : names ≠ []) :
    (pathOf (loc ++ names)).stripPrefix? (pathOf loc) = some (Path.ofSegments names) := by
  have hall : ∀ s ∈ loc ++ names, IsName s := fun s hs => (List.mem_append.1 hs).elim (h s) (hn s)
  unfold Path.stripPrefix?
  rw [components_pathOf h, components_pathOf hall, segments_pathOf (by simp [hne]) hall]
  rw [if_pos (by rw [List.isPrefixOf_iff_prefix, List.map_append]; simp)]
  simp only
  rw [afterComponents_append h names _ (by simp), trimSegments_eq_self hn]

theorem slashed_of_not_mem {t : String} (h : '\\' ∉ t.toList) : Path.slashed t = t := by
  unfold Path.slashed
  conv_rhs => rw [← String.ofList_toList (s := t), ← List.map_id t.toList]
  congr 1
  refine List.map_congr_left fun c hc => ?_
  have hne : c ≠ '\\' := by
    rintro rfl
    exact h hc
  rw [if_neg hne, id]

/-- What is shown of bytes without backslashes has none. -/
theorem slashed_lossy {s : Bytes} (h : NoBackslash s) : Path.slashed s.lossy = s.lossy := by
  refine slashed_of_not_mem fun hc => h ?_
  rw [Bytes.toList_lossy] at hc
  exact Bytes.mem_of_asciiChar_mem (x := backslash) (by decide) hc

/-- The path of a place relative to one above it. -/
theorem relativeTo_pathOf (h : ∀ s ∈ loc, IsName s) (hn : ∀ s ∈ names, IsName s)
    (hne : names ≠ []) :
    (pathOf (loc ++ names)).relativeTo (pathOf loc) = Path.slashed (joinSlashes names).lossy := by
  unfold Path.relativeTo
  rw [stripPrefix?_pathOf h hn hne, Option.getD_some]
  rfl

theorem joinSlashes_inj {m : List Bytes} (hn : ∀ s ∈ names, IsName s) (hm : ∀ s ∈ m, IsName s)
    (hne : names ≠ []) (hme : m ≠ []) (h : joinSlashes names = joinSlashes m) : names = m := by
  have hs := congrArg splitSlashes h
  have h₁ := Path.segments_ofSegments hne fun s hs => (hn s hs).no_slash
  have h₂ := Path.segments_ofSegments hme fun s hs => (hm s hs).no_slash
  exact h₁.symm.trans (hs.trans h₂)

/-- Relative paths tell places apart whose names are texts. -/
theorem lossy_joinSlashes_inj {m : List Bytes} (hn : ∀ s ∈ names, IsName s)
    (hm : ∀ s ∈ m, IsName s) (hne : names ≠ []) (hme : m ≠ []) (htn : ∀ s ∈ names, s.IsText)
    (htm : ∀ s ∈ m, s.IsText) (h : (joinSlashes names).lossy = (joinSlashes m).lossy) :
    names = m :=
  joinSlashes_inj hn hm hne hme
    ((isText_joinSlashes.2 htn).eq_of_lossy (isText_joinSlashes.2 htm) h)

/-- A place whose names are texts is named by what is shown of it. -/
theorem ofText_text_pathOf (h : ∀ s ∈ loc, s.IsText) :
    Path.ofText (pathOf loc).text = pathOf loc := by
  have htext : (pathOf loc).bytes.IsText :=
    (Bytes.isText_ascii (by decide)).append (isText_joinSlashes.2 h)
  exact congrArg Path.mk htext.bytes_lossy

/-! ### Temporary files -/

theorem bytes_pathOf_concat_append (loc : Location) (s e : Bytes) :
    (pathOf (loc ++ [s ++ e])).bytes = (pathOf (loc ++ [s])).bytes ++ e := by
  cases loc with
  | nil => simp [pathOf]
  | cons t l =>
    rw [bytes_pathOf_append (by simp) (by simp), bytes_pathOf_append (by simp) (by simp)]
    simp

/-- The temporary file of a file in a place lies in the same place. -/
theorem temporary_pathOf {front extension : Bytes} (h : ∀ s ∈ loc, IsName s) (hf : IsName front)
    (hn : IsName (front ++ extension))
    (he : (Path.splitExtension (front ++ extension)).2 = some extension) :
    temporary (pathOf (loc ++ [front ++ extension])) =
      pathOf (loc ++ [(Path.splitExtension front).1 ++ Text.bytes ".json.tmp"]) := by
  have hcut : (pathOf (loc ++ [front ++ extension])).cutExtension = pathOf (loc ++ [front]) := by
    unfold Path.cutExtension Path.extension? Path.fileName?
    rw [splitLast?_pathOf h hn]
    simp only [beq_iff_eq, hn.2.2.1, if_false, Option.bind_some, he]
    rw [bytes_pathOf_concat_append, List.length_append, Nat.add_sub_cancel, List.take_left]
  unfold temporary Path.withExtension
  rw [hcut]
  unfold Path.setExtension
  rw [splitLast?_pathOf h hf]
  simp only [beq_iff_eq, hf.2.2.1, if_false]
  rw [pathOf_cons (by simp)]
  rfl

end Disk

end SignalAtlas
