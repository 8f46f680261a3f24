import Mathlib.Tactic
import SignalAtlas.Text.Bytes

/-!
# Texts and their bytes

Encoding a text loses nothing, and reading bytes as a text loses exactly what is none: `Bytes.lossy`
undoes `Text.bytes` (`Bytes.lossy_bytes`), and `Text.bytes` undoes `Bytes.lossy` on the bytes that
encode a text (`Bytes.isText_iff`). ASCII bytes stand for themselves wherever they are:

* `Bytes.charsFrom_append_ascii`: what comes before such a byte and what comes after it are read on
  their own;
* `Bytes.isText_append_ascii`: together they are a text if each of them is one.
-/

namespace SignalAtlas

namespace Text

/-- The encoding of characters. -/
def encode (cs : List Char) : Bytes := cs.flatMap String.utf8EncodeChar

@[simp] theorem encode_nil : encode [] = [] := rfl

@[simp] theorem encode_cons (c : Char) (cs : List Char) :
    encode (c :: cs) = String.utf8EncodeChar c ++ encode cs := rfl

@[simp] theorem encode_append (cs ds : List Char) : encode (cs ++ ds) = encode cs ++ encode ds :=
  List.flatMap_append

theorem bytes_ofList (cs : List Char) : bytes (.ofList cs) = encode cs := by
  simp [bytes, String.toUTF8, List.utf8Encode, encode]

theorem bytes_eq_encode (s : String) : bytes s = encode s.toList := by
  rw [← bytes_ofList, String.ofList_toList]

@[simp] theorem bytes_append (s t : String) : bytes (s ++ t) = bytes s ++ bytes t := by
  simp [bytes, String.toUTF8]

theorem utf8EncodeChar_of_lt {c : Char} (h : c.toNat < 128) :
    String.utf8EncodeChar c = [UInt8.ofNat c.toNat] := by
  have hv : c.val.toNat ≤ 127 := Nat.le_of_lt_succ h
  unfold String.utf8EncodeChar
  simp only [hv, if_true]
  rfl

/-- The bytes of a character beyond ASCII are beyond it. -/
theorem le_of_mem_utf8EncodeChar {c : Char} (h : 128 ≤ c.toNat) {b : UInt8}
    (hb : b ∈ String.utf8EncodeChar c) : 128 ≤ b.toNat := by
  have hv : ¬c.val.toNat ≤ 127 := Nat.not_le.2 h
  have hofNat : ∀ n, n < 256 → (UInt8.ofNat n).toNat = n := fun n hn => by
    rw [UInt8.toNat_ofNat']
    exact Nat.mod_eq_of_lt hn
  unfold String.utf8EncodeChar at hb
  simp only [hv, if_false] at hb
  split at hb
  · simp only [List.mem_cons, List.not_mem_nil, or_false] at hb
    rcases hb with rfl | rfl <;> rw [hofNat _ (by omega)] <;> omega
  · split at hb
    · simp only [List.mem_cons, List.not_mem_nil, or_false] at hb
      rcases hb with rfl | rfl | rfl <;> rw [hofNat _ (by omega)] <;> omega
    · simp only [List.mem_cons, List.not_mem_nil, or_false] at hb
      rcases hb with rfl | rfl | rfl | rfl <;> rw [hofNat _ (by omega)] <;> omega

theorem toNat_asciiChar {b : UInt8} (h : b.toNat < 128) : (asciiChar b).toNat = b.toNat := by
  have hvalid : b.toNat.isValidChar := .inl (by omega)
  exact congrArg Char.toNat (dif_pos hvalid : Char.ofNat b.toNat = Char.ofNatAux b.toNat hvalid)

theorem utf8EncodeChar_asciiChar {b : UInt8} (h : b.toNat < 128) :
    String.utf8EncodeChar (asciiChar b) = [b] := by
  have hc := toNat_asciiChar h
  rw [utf8EncodeChar_of_lt (by omega), hc, UInt8.ofNat_toNat]

/-- An ASCII byte is part of no character but its own. -/
theorem eq_asciiChar_of_mem {c : Char} {b : UInt8} (h : b.toNat < 128)
    (hb : b ∈ String.utf8EncodeChar c) : c = asciiChar b := by
  have hc : c.toNat < 128 := by
    by_contra hc
    have := le_of_mem_utf8EncodeChar (Nat.not_lt.1 hc) hb
    omega
  rw [utf8EncodeChar_of_lt hc, List.mem_singleton] at hb
  rw [asciiChar, hb, UInt8.toNat_ofNat', Nat.mod_eq_of_lt (by omega), Char.ofNat_toNat]

end Text

namespace Bytes

open Text

/-! ### Characters in front of bytes -/

theorem char?_encodeChar_append (c : Char) (rest : Bytes) :
    char? (String.utf8EncodeChar c ++ rest) = some c := by
  rw [char?, List.toByteArray_append]
  exact ByteArray.utf8DecodeChar?_utf8EncodeChar_append

theorem exists_of_char? {b : Bytes} {c : Char} (h : char? b = some c) :
    ∃ rest, b = String.utf8EncodeChar c ++ rest := by
  obtain ⟨l, hl⟩ := ByteArray.exists_of_utf8DecodeChar?_eq_some h
  refine ⟨l.data.toList, ?_⟩
  have := congrArg (fun a => a.data.toList) hl
  simpa using this

theorem charsFrom_eq_drop (n : Nat) (b : Bytes) : charsFrom n b = charsFrom 0 (b.drop n) := by
  induction b generalizing n with
  | nil => cases n <;> simp [charsFrom]
  | cons x b ih =>
    cases n with
    | zero => rfl
    | succ n => rw [charsFrom, ih, List.drop_succ_cons]

/-- A character in front of bytes is read first. -/
theorem charsFrom_encodeChar_append (c : Char) (rest : Bytes) :
    charsFrom 0 (String.utf8EncodeChar c ++ rest) = c :: charsFrom 0 rest := by
  have hc := char?_encodeChar_append c rest
  have hlength := String.length_utf8EncodeChar c
  cases he : String.utf8EncodeChar c with
  | nil => exact absurd he String.utf8EncodeChar_ne_nil
  | cons x l =>
    rw [he] at hc hlength
    rw [List.cons_append] at hc ⊢
    rw [charsFrom, hc]
    show c :: charsFrom (c.utf8Size - 1) (l ++ rest) = _
    rw [charsFrom_eq_drop, ← hlength, List.length_cons, Nat.add_sub_cancel, List.drop_left]

/-- What is left behind a character is shorter. -/
theorem length_lt_of_encodeChar {c : Char} {b rest : Bytes}
    (h : b = String.utf8EncodeChar c ++ rest) : rest.length < b.length := by
  rw [h, List.length_append, String.length_utf8EncodeChar]
  have hpos := c.utf8Size_pos
  omega

/-- Bytes begin with a character, or with some that are replaced. -/
theorem charsFrom_cases (y : UInt8) (b : Bytes) :
    (∃ c rest, y :: b = String.utf8EncodeChar c ++ rest ∧
        charsFrom 0 (y :: b) = c :: charsFrom 0 rest) ∨
      ∃ k, charsFrom 0 (y :: b) = replacement :: charsFrom 0 (b.drop k) := by
  cases hc : char? (y :: b) with
  | some c =>
    obtain ⟨rest, hrest⟩ := exists_of_char? hc
    exact .inl ⟨c, rest, hrest, by rw [hrest, charsFrom_encodeChar_append]⟩
  | none =>
    refine .inr ⟨fitting ((continuations y).getD []) b, ?_⟩
    rw [charsFrom, hc]
    exact congrArg (List.cons replacement) (charsFrom_eq_drop _ b)

theorem charsFrom_encode (cs : List Char) : charsFrom 0 (encode cs) = cs := by
  induction cs with
  | nil => rfl
  | cons c cs ih => rw [encode_cons, charsFrom_encodeChar_append, ih]

/-- Reading undoes encoding. -/
@[simp] theorem lossy_bytes (s : String) : lossy (Text.bytes s) = s := by
  rw [lossy, bytes_eq_encode, charsFrom_encode, String.ofList_toList]

theorem toList_lossy (b : Bytes) : b.lossy.toList = charsFrom 0 b := String.toList_ofList

/-! ### Bytes that are a text -/

/-- Bytes that encode a text. -/
def IsText (b : Bytes) : Prop := ∃ s : String, Text.bytes s = b

theorem isText_bytes (s : String) : IsText (Text.bytes s) := ⟨s, rfl⟩

/-- Bytes are a text exactly if encoding undoes reading them. -/
theorem isText_iff {b : Bytes} : IsText b ↔ Text.bytes b.lossy = b := by
  constructor
  · rintro ⟨s, rfl⟩
    rw [lossy_bytes]
  · exact fun h => ⟨_, h⟩

instance decidableIsText (b : Bytes) : Decidable (IsText b) := decidable_of_iff _ isText_iff.symm

theorem IsText.bytes_lossy {b : Bytes} (h : IsText b) : Text.bytes b.lossy = b := isText_iff.1 h

theorem IsText.append {a b : Bytes} (ha : IsText a) (hb : IsText b) : IsText (a ++ b) := by
  obtain ⟨s, rfl⟩ := ha
  obtain ⟨t, rfl⟩ := hb
  exact ⟨s ++ t, bytes_append s t⟩

/-- Texts are told apart by what is read. -/
theorem IsText.eq_of_lossy {a b : Bytes} (ha : IsText a) (hb : IsText b)
    (h : a.lossy = b.lossy) : a = b := by
  rw [← ha.bytes_lossy, h, hb.bytes_lossy]

theorem text?_eq_some_iff {b : Bytes} {s : String} : text? b = some s ↔ Text.bytes s = b := by
  constructor
  · intro h
    unfold text? String.fromUTF8? at h
    split at h
    · cases h
      simp [Text.bytes, String.toUTF8, String.fromUTF8]
    · cases h
  · rintro rfl
    exact text?_bytes s

theorem isText_ascii {b : UInt8} (h : b.toNat < 128) : IsText [b] :=
  ⟨.ofList [asciiChar b], by rw [bytes_ofList, encode_cons, utf8EncodeChar_asciiChar h]; rfl⟩

/-! ### ASCII bytes -/

/-- An ASCII byte of an encoded text is that of one of its characters. -/
theorem asciiChar_mem_of_mem {x : UInt8} (hx : x.toNat < 128) {s : String}
    (h : x ∈ Text.bytes s) : asciiChar x ∈ s.toList := by
  rw [bytes_eq_encode, encode, List.mem_flatMap] at h
  obtain ⟨c, hc, hm⟩ := h
  rwa [← eq_asciiChar_of_mem hx hm]

theorem char?_cons_ascii {x : UInt8} (hx : x.toNat < 128) (b : Bytes) :
    char? (x :: b) = some (asciiChar x) := by
  have := char?_encodeChar_append (asciiChar x) b
  rwa [utf8EncodeChar_asciiChar hx] at this

theorem le_of_mem_continuations {b : UInt8} {ranges : List (UInt8 × UInt8)}
    (h : continuations b = some ranges) {r : UInt8 × UInt8} (hr : r ∈ ranges) :
    128 ≤ r.1.toNat := by
  unfold continuations at h
  simp only at h
  split_ifs at h <;> cases h <;>
    simp only [List.mem_cons, List.not_mem_nil, or_false] at hr <;>
    rcases hr with rfl | rfl | rfl <;> decide

theorem fitting_le (ranges : List (UInt8 × UInt8)) (b : Bytes) : fitting ranges b ≤ b.length := by
  fun_induction fitting ranges b with
  | case1 lo hi ranges x rest h ih => simpa using ih
  | case2 => simp
  | case3 => simp

/-- An ASCII byte continues no character. -/
theorem fitting_append_ascii {x : UInt8} (hx : x.toNat < 128) {ranges : List (UInt8 × UInt8)}
    (h : ∀ r ∈ ranges, 128 ≤ r.1.toNat) (a b : Bytes) :
    fitting ranges (a ++ x :: b) = fitting ranges a := by
  induction ranges generalizing a with
  | nil => simp [fitting]
  | cons r ranges ih =>
    obtain ⟨hr, hranges⟩ := List.forall_mem_cons.1 h
    cases a with
    | nil =>
      have hlt : ¬r.1 ≤ x := by
        rw [UInt8.le_iff_toNat_le]
        omega
      simp [fitting, hlt]
    | cons y a =>
      rw [List.cons_append, fitting, fitting, ih hranges]

/-- Before an ASCII byte a character is read as if the bytes ended there. -/
theorem char?_append_ascii {x : UInt8} (hx : x.toNat < 128) (y : UInt8) (a b : Bytes) :
    char? (y :: a ++ x :: b) = char? (y :: a) := by
  cases hc : char? (y :: a) with
  | some c =>
    obtain ⟨rest, hrest⟩ := exists_of_char? hc
    rw [hrest, List.append_assoc, char?_encodeChar_append]
  | none =>
    rw [Option.eq_none_iff_forall_ne_some]
    intro c hsome
    obtain ⟨rest, hrest⟩ := exists_of_char? hsome
    rcases List.append_eq_append_iff.1 hrest with ⟨m, hm, -⟩ | ⟨m, hm, -⟩
    · -- the character would reach past the byte, and so have it for its own
      have hxm : x ∈ String.utf8EncodeChar c := by
        cases m with
        | nil =>
          rw [List.append_nil] at hm
          have := char?_encodeChar_append c []
          rw [List.append_nil, hm, hc] at this
          cases this
        | cons z m =>
          have hz := hrest
          rw [hm, List.append_assoc, List.append_cancel_left_eq, List.cons_append] at hz
          rw [hm]
          simp [(List.cons.inj hz).1]
      rw [eq_asciiChar_of_mem hx hxm, utf8EncodeChar_asciiChar hx] at hm
      rw [List.cons_append] at hm
      obtain ⟨rfl, -⟩ := List.cons.inj hm
      rw [char?_cons_ascii hx] at hc
      cases hc
    · rw [hm, char?_encodeChar_append] at hc
      cases hc

/-- What comes before an ASCII byte and what comes after it are read on their own. -/
theorem charsFrom_append_ascii {x : UInt8} (hx : x.toNat < 128) (a b : Bytes) :
    charsFrom 0 (a ++ x :: b) = charsFrom 0 a ++ asciiChar x :: charsFrom 0 b := by
  induction hn : a.length using Nat.strongRecOn generalizing a with
  | ind n ih =>
    cases a with
    | nil =>
      have := charsFrom_encodeChar_append (asciiChar x) b
      rwa [utf8EncodeChar_asciiChar hx] at this
    | cons y a =>
      cases hc : char? (y :: a) with
      | some c =>
        obtain ⟨rest, hrest⟩ := exists_of_char? hc
        have hrest' := ih _ (hn ▸ length_lt_of_encodeChar hrest) rest rfl
        rw [hrest, List.append_assoc, charsFrom_encodeChar_append, charsFrom_encodeChar_append,
          hrest', List.cons_append]
      | none =>
        -- as many bytes are replaced as without the byte and what follows it
        have hranges : ∀ r ∈ (continuations y).getD [], 128 ≤ r.1.toNat := by
          cases hr : continuations y with
          | none => simp
          | some ranges => exact fun r hm => le_of_mem_continuations hr hm
        have hchar := char?_append_ascii hx y a b
        rw [List.cons_append] at hchar ⊢
        rw [charsFrom, charsFrom, hchar, hc]
        show replacement :: charsFrom _ (a ++ x :: b) = replacement :: charsFrom _ a ++ _
        rw [fitting_append_ascii hx hranges, charsFrom_eq_drop, charsFrom_eq_drop _ a,
          List.drop_append_of_le_length (fitting_le _ _), ih _ ?_ _ rfl, List.cons_append]
        rw [← hn, List.length_drop, List.length_cons]
        omega

theorem replacement_ne_asciiChar {x : UInt8} (hx : x.toNat < 128) : replacement ≠ asciiChar x := by
  intro he
  have hn := congrArg Char.toNat he
  rw [toNat_asciiChar hx] at hn
  have hr : replacement.toNat = 65533 := rfl
  omega

/-- An ASCII character is read only where its byte stands. -/
theorem mem_of_asciiChar_mem {x : UInt8} (hx : x.toNat < 128) {b : Bytes}
    (h : asciiChar x ∈ charsFrom 0 b) : x ∈ b := by
  induction hn : b.length using Nat.strongRecOn generalizing b with
  | ind n ih =>
    cases b with
    | nil => cases h
    | cons y b =>
      rcases charsFrom_cases y b with ⟨c, rest, hrest, hchars⟩ | ⟨k, hchars⟩
      · rw [hchars] at h
        have hlt : rest.length < n := hn ▸ length_lt_of_encodeChar hrest
        rw [hrest]
        rcases List.mem_cons.1 h with rfl | h
        · rw [utf8EncodeChar_asciiChar hx]
          exact List.mem_cons_self
        · exact List.mem_append_right _ (ih _ hlt h rfl)
      · rw [hchars] at h
        rcases List.mem_cons.1 h with he | h
        · exact absurd he.symm (replacement_ne_asciiChar hx)
        · have hlt : (b.drop k).length < n := by
            rw [← hn, List.length_drop, List.length_cons]
            omega
          exact List.mem_cons_of_mem _ (List.mem_of_mem_drop (ih _ hlt h rfl))

/-- ASCII bytes come first where their characters do. -/
theorem head?_charsFrom {x : UInt8} (hx : x.toNat < 128) {b : Bytes} :
    (charsFrom 0 b).head? = some (asciiChar x) ↔ b.head? = some x := by
  constructor
  · cases b with
    | nil => exact fun h => by cases h
    | cons y b =>
      intro h
      rcases charsFrom_cases y b with ⟨c, rest, hrest, hchars⟩ | ⟨k, hchars⟩
      · rw [hchars] at h
        cases h
        rw [hrest, utf8EncodeChar_asciiChar hx]
        rfl
      · rw [hchars] at h
        exact absurd (Option.some.inj h) (replacement_ne_asciiChar hx)
  · intro h
    obtain ⟨rest, rfl⟩ := List.head?_eq_some_iff.1 h
    have := charsFrom_append_ascii hx [] rest
    rw [List.nil_append] at this
    rw [this]
    rfl

/-- Bytes in which nothing had to be replaced are a text. -/
theorem isText_of_not_mem {b : Bytes} (h : replacement ∉ charsFrom 0 b) : IsText b := by
  induction hn : b.length using Nat.strongRecOn generalizing b with
  | ind n ih =>
    cases b with
    | nil => exact ⟨"", rfl⟩
    | cons y b =>
      rcases charsFrom_cases y b with ⟨c, rest, hrest, hchars⟩ | ⟨k, hchars⟩
      · rw [hchars] at h
        obtain ⟨s, rfl⟩ := ih _ (hn ▸ length_lt_of_encodeChar hrest)
          (fun hm => h (List.mem_cons_of_mem _ hm)) rfl
        refine ⟨.ofList [c] ++ s, ?_⟩
        rw [bytes_append, bytes_ofList, hrest]
        simp
      · rw [hchars] at h
        exact absurd List.mem_cons_self h

/-- An ASCII byte in the encoding of characters is that of one of them. -/
theorem exists_of_encode_eq {x : UInt8} (hx : x.toNat < 128) {cs : List Char} {a b : Bytes}
    (h : encode cs = a ++ x :: b) : ∃ ds es, encode ds = a ∧ encode es = b := by
  induction cs generalizing a with
  | nil => simp at h
  | cons c cs ih =>
    rw [encode_cons] at h
    rcases List.append_eq_append_iff.1 h with ⟨m, hm, hrest⟩ | ⟨m, hm, hrest⟩
    · obtain ⟨ds, es, hds, hes⟩ := ih hrest
      exact ⟨c :: ds, es, by rw [encode_cons, hds, hm], hes⟩
    · cases m with
      | nil =>
        obtain ⟨ds, es, hds, hes⟩ := @ih [] hrest.symm
        exact ⟨[c], es, by simpa using hm, hes⟩
      | cons z m =>
        -- the byte belongs to the character, which is then nothing but this byte
        obtain ⟨rfl, hb⟩ := List.cons.inj hrest
        have hc := eq_asciiChar_of_mem hx (by rw [hm]; simp : x ∈ String.utf8EncodeChar c)
        rw [hc, utf8EncodeChar_asciiChar hx] at hm
        cases a with
        | nil =>
          obtain ⟨-, rfl⟩ := List.cons.inj hm
          exact ⟨[], cs, rfl, hb.symm⟩
        | cons y a => simp at hm

/-- Bytes that are read as a text without replacements are its encoding. -/
theorem lossy_eq_iff {b : Bytes} {s : String} (hs : replacement ∉ s.toList) :
    b.lossy = s ↔ b = Text.bytes s := by
  constructor
  · rintro rfl
    rw [toList_lossy] at hs
    exact (isText_of_not_mem hs).bytes_lossy.symm
  · rintro rfl
    exact lossy_bytes s

/-- Bytes around an ASCII byte are a text if and only if each part is one. -/
theorem isText_append_ascii {x : UInt8} (hx : x.toNat < 128) {a b : Bytes} :
    IsText (a ++ x :: b) ↔ IsText a ∧ IsText b := by
  constructor
  · rintro ⟨s, hs⟩
    rw [bytes_eq_encode] at hs
    obtain ⟨ds, es, rfl, rfl⟩ := exists_of_encode_eq hx hs
    exact ⟨⟨_, bytes_ofList ds⟩, ⟨_, bytes_ofList es⟩⟩
  · rintro ⟨ha, hb⟩
    exact ha.append ((isText_ascii hx).append hb)

end Bytes

end SignalAtlas
