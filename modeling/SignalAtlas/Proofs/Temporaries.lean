import Mathlib.Tactic
import SignalAtlas.Proofs.Descents
import SignalAtlas.Proofs.Saving

/-!
# The path of a temporary file

Every path is the path of some segments without slashes. Read so, the temporary file of a file has
the same segments up to the last one. `Path.temporary_ofSegments` says what that one is, and
`Disk.steps_temporary` what a walk along the path meets: the same steps, and then another name. The
other name is that of the folder above for a file that has two dots and no more in its name.
-/

namespace SignalAtlas

namespace Path

variable {front : List Bytes} {s e : Bytes}

theorem bytes_ofSegments_append (front : List Bytes) (s e : Bytes) :
    (ofSegments (front ++ [s ++ e])).bytes = (ofSegments (front ++ [s])).bytes ++ e := by
  unfold ofSegments
  cases front with
  | nil => rfl
  | cons t l =>
    rw [joinSlashes_append (by simp) (by simp), joinSlashes_append (by simp) (by simp)]
    simp

theorem splitLast?_ofSegments (h : ∀ t ∈ front ++ [s], slash ∉ t) (hs : counts s = true) :
    (ofSegments (front ++ [s])).splitLast? = some (front, s) := by
  unfold splitLast?
  rw [segments_ofSegments (by simp) h, trimBack_eq_self]
  · simp only [List.getLast?_concat, List.dropLast_concat]
  · intro t ht
    rw [List.getLast?_concat] at ht
    cases ht
    exact hs

theorem cutExtension_ofSegments (h : ∀ t ∈ front ++ [s ++ dot :: e], slash ∉ t)
    (hs : counts (s ++ dot :: e) = true) (hup : s ++ dot :: e ≠ [dot, dot])
    (hx : splitExtension (s ++ dot :: e) = (s, some e)) :
    (ofSegments (front ++ [s ++ dot :: e])).cutExtension = ofSegments (front ++ [s ++ [dot]]) := by
  unfold cutExtension extension? fileName?
  rw [splitLast?_ofSegments h hs]
  simp only [beq_iff_eq, hup, if_false, Option.bind_some, hx]
  rw [show s ++ dot :: e = s ++ [dot] ++ e by simp, bytes_ofSegments_append, List.length_append,
    Nat.add_sub_cancel, List.take_left]

theorem setExtension_ofSegments (h : ∀ t ∈ front ++ [s], slash ∉ t) (hs : counts s = true)
    (hup : s ≠ [dot, dot]) (extension : Bytes) :
    (ofSegments (front ++ [s])).setExtension extension =
      ofSegments (front ++ [(splitExtension s).1 ++ dot :: extension]) := by
  unfold setExtension
  rw [splitLast?_ofSegments h hs]
  simp only [beq_iff_eq, hup, if_false]

theorem isName_extended (h : slash ∉ s) : IsName (s ++ dot :: Text.bytes "json.tmp") := by
  have hlength : 2 < (s ++ dot :: Text.bytes "json.tmp").length := by
    rw [List.length_append, List.length_cons, show (Text.bytes "json.tmp").length = 8 by decide]
    omega
  have hslash : slash ∉ dot :: Text.bytes "json.tmp" := by decide
  refine ⟨?_, ?_, ?_, ?_⟩
  · intro hc
    simp [hc] at hlength
  · intro hc
    simp [hc] at hlength
  · intro hc
    simp [hc] at hlength
  · exact fun hc => (List.mem_append.1 hc).elim h hslash

/-- The temporary file of a file has another name in the same folder, unless the name of the file is
two dots with an extension. -/
theorem temporary_ofSegments (h : ∀ t ∈ front ++ [s], slash ∉ t) (hs : IsName s) :
    ∃ s', Disk.temporary (ofSegments (front ++ [s])) = ofSegments (front ++ [s']) ∧
      (s' = [dot, dot] ∨ IsName s' ∧ s' ≠ s) := by
  unfold Disk.temporary withExtension
  rcases splitExtension_cases s with hx | ⟨stem, e, rfl, hstem, he, hx⟩
  · have hcut : (ofSegments (front ++ [s])).cutExtension = ofSegments (front ++ [s]) := by
      unfold cutExtension extension? fileName?
      rw [splitLast?_ofSegments h hs.counts]
      simp only [beq_iff_eq, hs.2.2.1, if_false, Option.bind_some, hx]
    refine ⟨s ++ dot :: Text.bytes "json.tmp", ?_, .inr ⟨isName_extended hs.no_slash, ?_⟩⟩
    · rw [hcut, setExtension_ofSegments h hs.counts hs.2.2.1, hx]
    · exact fun hc => absurd (List.append_right_eq_self.1 hc) (by simp)
  · have hslash : slash ∉ stem := fun hc => hs.no_slash (List.mem_append_left _ hc)
    have hfront : ∀ t ∈ front ++ [stem ++ [dot]], slash ∉ t := by
      intro t ht
      rcases List.mem_append.1 ht with ht | ht
      · exact h t (by simp [ht])
      · rw [List.mem_singleton.1 ht]
        exact fun hc => (List.mem_append.1 hc).elim hslash (by decide)
    rw [cutExtension_ofSegments h hs.counts hs.2.2.1 hx]
    by_cases hdot : stem = [dot]
    · subst hdot
      refine ⟨[dot, dot], ?_, .inl rfl⟩
      unfold setExtension
      rw [splitLast?_ofSegments hfront (by decide)]
      rfl
    · have hname : counts (stem ++ [dot]) = true ∧ stem ++ [dot] ≠ [dot, dot] := by
        refine ⟨?_, fun hc => hdot (List.append_cancel_right (show _ = [dot] ++ [dot] from hc))⟩
        simp only [counts, Bool.and_eq_true, bne_iff_ne]
        exact ⟨by simp, fun hc => hstem (List.append_cancel_right (show _ = [] ++ [dot] from hc))⟩
      refine ⟨stem ++ dot :: Text.bytes "json.tmp", ?_, .inr ⟨isName_extended hslash, fun hc => ?_⟩⟩
      · rw [setExtension_ofSegments hfront hname.1 hname.2, splitExtension_of_dot hstem (by simp)]
      · have hsame := List.append_cancel_left hc
        rw [List.cons.injEq] at hsame
        rw [← hsame.2] at he
        exact he (by decide)

theorem isAbsolute_ofSegments (h : ∀ t ∈ front ++ [s], slash ∉ t) :
    (ofSegments (front ++ [s])).isAbsolute = (front.head? == some []) := by
  have hhead : ∀ t : Bytes, slash ∉ t → ∀ rest, t ≠ [] → (t ++ rest).head? ≠ some slash := by
    intro t ht rest hne hc
    obtain ⟨x, t, rfl⟩ := List.exists_cons_of_ne_nil hne
    cases hc
    simp at ht
  unfold isAbsolute ofSegments
  cases front with
  | nil =>
    rw [List.nil_append, joinSlashes_singleton]
    by_cases hs : s = []
    · subst hs
      rfl
    · have hne := hhead s (h s (by simp)) [] hs
      rw [List.append_nil] at hne
      simp [hne]
  | cons t l =>
    rw [List.cons_append, joinSlashes_cons (by simp), List.head?_cons]
    by_cases ht : t = []
    · subst ht
      rfl
    · rw [beq_eq_false_iff_ne.2 (hhead t (h t (by simp)) _ ht), eq_comm, beq_eq_false_iff_ne]
      simpa using ht

theorem steps_ofSegments (h : ∀ t ∈ front ++ [s], slash ∉ t) :
    Disk.steps (ofSegments (front ++ [s])) =
      (if front.head? == some [] then front.drop 1 else front) ++ [s] := by
  unfold Disk.steps
  rw [isAbsolute_ofSegments h, segments_ofSegments (by simp) h]
  split
  · next hf =>
    cases front with
    | nil => cases hf
    | cons t l => rfl
  · rfl

end Path

namespace Disk

variable {p : Path}

/-- A path that ends in a name leads to the entry of that name, and the path of its temporary file
to another entry of the same folder. -/
theorem steps_temporary (hne : p.bytes ≠ []) (hslash : endsInSlash p = false)
    (hdots : endsInDots p = false) :
    ∃ front s s', IsName s ∧ steps p = front ++ [s] ∧ steps (temporary p) = front ++ [s'] ∧
      (temporary p).isAbsolute = p.isAbsolute ∧ (s' = [dot, dot] ∨ IsName s' ∧ s' ≠ s) := by
  obtain ⟨l, hl, hno, rfl⟩ := p.exists_segments
  obtain ⟨front, s, rfl⟩ := (List.eq_nil_or_concat' l).resolve_left hl
  have hs : IsName s := by
    unfold endsInDots at hdots
    rw [withoutSlashes_eq_self hslash, Path.segments_ofSegments hl hno,
      List.getLast?_concat] at hdots
    simp only [Bool.or_eq_false_iff, beq_eq_false_iff_ne] at hdots
    refine ⟨?_, hdots.1, hdots.2, hno s (by simp)⟩
    rintro rfl
    cases front with
    | nil => exact hne rfl
    | cons t front =>
      unfold endsInSlash Path.ofSegments at hslash
      rw [joinSlashes_append (by simp) (by simp)] at hslash
      simp at hslash
  obtain ⟨s', htemporary, hs'⟩ := Path.temporary_ofSegments hno hs
  have hno' : ∀ t ∈ front ++ [s'], slash ∉ t := by
    intro t ht
    rcases List.mem_append.1 ht with ht | ht
    · exact hno t (by simp [ht])
    · rw [List.mem_singleton.1 ht]
      rcases hs' with rfl | ⟨hs', -⟩
      · decide
      · exact hs'.no_slash
  refine ⟨_, s, s', hs, Path.steps_ofSegments hno, ?_, ?_, hs'⟩
  · rw [htemporary, Path.steps_ofSegments hno']
  · rw [htemporary, Path.isAbsolute_ofSegments hno', Path.isAbsolute_ofSegments hno]

end Disk

end SignalAtlas
