import Crosslink.Proofs.Operands
import Crosslink.Proofs.Slices

/-!
# Reading bytes for characters

A reader that goes through a source text byte by byte looks at numbers, not at characters: a
character beyond ASCII is several bytes to it, none of which is the byte of an ASCII character.
`octets` is what such a reader sees, each byte written as the character with its number. The
lengths that pieces of a source are measured by come out the same on it, counted in bytes, although
none of the functions below knows where one character ends and the next begins.

* §1 The bytes of a character and of a text.
* §2 `Blind`, the tests that cannot tell two bytes beyond ASCII apart, and what they take of a text.
* §3 Names, numbers, comments and strings end at the same place.

## Main statements

* `Text.takeWhile_octets`: a blind test takes whole characters.
* `Source.qualifiedLength_octets`, `Source.lineCommentLength_octets`,
  `Source.quotedLength_octets`: the ends found on bytes are those found on characters. For a string
  this holds although a backslash takes along one byte of a character that has several.
-/

namespace Crosslink

namespace Text

variable {c d : Char} {t : Text} {p : Char → Bool}

/-! ## 1. The bytes of a text -/

/-- The bytes of a character in UTF-8, each as the character with its number. -/
def octetsOf (c : Char) : List Char := (String.utf8EncodeChar c).map Char.ofUInt8

/-- The bytes of a text in UTF-8, each as the character with its number. -/
def octets (text : Text) : List Char := text.flatMap octetsOf

theorem octetsOf_ascii (h : c.toNat < 0x80) : octetsOf c = [c] := by
  have hsame : c.toNat = c.val.toNat := rfl
  have hv : c.val.toNat ≤ 127 := by omega
  have hback : Char.ofUInt8 (UInt8.ofNat c.val.toNat) = c := by
    apply Char.toNat_inj.mp
    change (UInt8.ofNat c.val.toNat).toNat = c.toNat
    rw [UInt8.toNat_ofNat']
    omega
  unfold octetsOf String.utf8EncodeChar
  simp only [if_pos hv, List.map_cons, List.map_nil, hback]

theorem le_of_mem_octetsOf (h : 0x80 ≤ c.toNat) (hd : d ∈ octetsOf c) : 0x80 ≤ d.toNat := by
  have hsame : c.toNat = c.val.toNat := rfl
  have hv : ¬ c.val.toNat ≤ 127 := by omega
  obtain ⟨b, hb, rfl⟩ := List.mem_map.mp hd
  change 0x80 ≤ b.toNat
  unfold String.utf8EncodeChar at hb
  simp only [if_neg hv] at hb
  -- two, three or four bytes
  split at hb
  · simp only [List.mem_cons, List.not_mem_nil, or_false] at hb
    rcases hb with rfl | rfl <;> rw [UInt8.toNat_ofNat'] <;> omega
  · split at hb
    · simp only [List.mem_cons, List.not_mem_nil, or_false] at hb
      rcases hb with rfl | rfl | rfl <;> rw [UInt8.toNat_ofNat'] <;> omega
    · simp only [List.mem_cons, List.not_mem_nil, or_false] at hb
      rcases hb with rfl | rfl | rfl | rfl <;> rw [UInt8.toNat_ofNat'] <;> omega

@[simp] theorem length_octetsOf (c : Char) : (octetsOf c).length = c.utf8Size := by
  rw [octetsOf, List.length_map, String.length_utf8EncodeChar]

theorem utf8Size_ascii (h : c.toNat < 0x80) : c.utf8Size = 1 := by
  rw [← length_octetsOf, octetsOf_ascii h, List.length_singleton]

@[simp] theorem octets_nil : octets [] = [] := rfl

@[simp] theorem octets_cons (c : Char) (t : Text) : octets (c :: t) = octetsOf c ++ octets t := rfl

@[simp] theorem octets_append (a b : Text) : octets (a ++ b) = octets a ++ octets b :=
  List.flatMap_append

@[simp] theorem length_octets (t : Text) : (octets t).length = width t := by
  induction t with
  | nil => rfl
  | cons c t ih => simp [ih]

theorem drop_octets (a b : Text) : (octets (a ++ b)).drop (width a) = octets b := by
  rw [octets_append, ← length_octets a, List.drop_left]

/-- One byte that is the character, or several that are none of ASCII. -/
theorem octetsOf_cases (c : Char) : (c.toNat < 0x80 ∧ octetsOf c = [c]) ∨
    (0x80 ≤ c.toNat ∧ ∃ o os, octetsOf c = o :: os ∧ ∀ d ∈ o :: os, 0x80 ≤ d.toNat) := by
  rcases Nat.lt_or_ge c.toNat 0x80 with h | h
  · exact Or.inl ⟨h, octetsOf_ascii h⟩
  · have hlength := length_octetsOf c
    have hpos := c.utf8Size_pos
    cases ho : octetsOf c with
    | nil => simp [ho] at hlength; omega
    | cons o os =>
      refine Or.inr ⟨h, o, os, rfl, fun d hd => le_of_mem_octetsOf h ?_⟩
      rw [ho]
      exact hd

/-! ## 2. Tests that are blind beyond ASCII -/

/-- A test that answers alike for all characters beyond ASCII. -/
def Blind (p : Char → Bool) : Prop := ∀ c d : Char, 0x80 ≤ c.toNat → 0x80 ≤ d.toNat → p c = p d

theorem ne_of_le (h : 0x80 ≤ c.toNat) (hd : d.toNat < 0x80) : c ≠ d := by
  rintro rfl
  omega

theorem Blind.eq (hd : d.toNat < 0x80) : Blind fun c => c = d := by
  intro c c' hc hc'
  simp only [ne_of_le hc hd, ne_of_le hc' hd]

theorem Blind.or {q : Char → Bool} (hp : Blind p) (hq : Blind q) : Blind fun c => p c || q c :=
  fun c d hc hd => by simp only [hp c d hc hd, hq c d hc hd]

theorem Blind.isIndent : Blind isIndent := (Blind.eq (by decide)).or (Blind.eq (by decide))

theorem lt_of_isAlphanum (h : c.isAlphanum = true) : c.toNat < 0x80 := by
  have hcases : ((decide (c.val ≥ 'A'.val ∧ c.val ≤ 'Z'.val) ||
      decide (c.val ≥ 'a'.val) && decide (c.val ≤ 'z'.val)) ||
      decide (c.val ≥ '0'.val) && decide (c.val ≤ '9'.val)) = true := h
  simp only [Bool.or_eq_true, Bool.and_eq_true, decide_eq_true_eq, UInt32.le_iff_toNat_le,
    ge_iff_le] at hcases
  change ((65 ≤ c.toNat ∧ c.toNat ≤ 90) ∨ (97 ≤ c.toNat ∧ c.toNat ≤ 122)) ∨
    (48 ≤ c.toNat ∧ c.toNat ≤ 57) at hcases
  omega

theorem Blind.of_lt (hp : ∀ c, p c = true → c.toNat < 0x80) : Blind p := by
  have hfalse : ∀ c : Char, 0x80 ≤ c.toNat → p c = false := by
    intro c hc
    refine Bool.eq_false_iff.mpr fun h => ?_
    have := hp c h
    omega
  intro c d hc hd
  rw [hfalse c hc, hfalse d hd]

/-- A blind test takes whole characters. -/
theorem takeWhile_octets (hp : Blind p) (t : Text) :
    (octets t).takeWhile p = octets (t.takeWhile p) := by
  induction t with
  | nil => rfl
  | cons c t ih =>
    rcases octetsOf_cases c with ⟨h, ho⟩ | ⟨h, o, os, ho, hos⟩
    · cases hc : p c <;> simp [ho, hc, ih]
    · have hall : ∀ d ∈ octetsOf c, p d = p c := by
        intro d hd
        exact hp d c (hos d (ho ▸ hd)) h
      cases hc : p c with
      | true =>
        rw [List.takeWhile_cons_of_pos hc, octets_cons, octets_cons,
          List.takeWhile_append_of_pos (fun d hd => (hall d hd).trans hc), ih]
      | false =>
        have ho' : p o = false := (hall o (by simp [ho])).trans hc
        simp [ho, hc, ho']

/-- What a blind test takes, counted in bytes and in characters. -/
theorem length_takeWhile_octets (hp : Blind p) (t : Text) :
    ((octets t).takeWhile p).length = width (t.take (t.takeWhile p).length) := by
  rw [takeWhile_octets hp, length_octets, ← List.prefix_iff_eq_take.mp (t.takeWhile_prefix p)]

theorem any_head_octets (hp : Blind p) (t : Text) : (octets t).head?.any p = t.head?.any p := by
  cases t with
  | nil => rfl
  | cons c t =>
    rcases octetsOf_cases c with ⟨-, ho⟩ | ⟨h, o, os, ho, hos⟩
    · simp [ho]
    · simpa [ho] using hp o c (hos o (by simp)) h

theorem head_octets (hd : d.toNat < 0x80) (t : Text) :
    (octets t).head? = some d ↔ t.head? = some d := by
  have h := any_head_octets (Blind.eq hd) t
  cases ht : t.head? <;> cases ho : (octets t).head? <;> simp_all

theorem head_filter_octets (hp : ∀ c, p c = true → c.toNat < 0x80) (t : Text) :
    (octets t).head?.filter p = t.head?.filter p := by
  cases t with
  | nil => rfl
  | cons c t =>
    rcases octetsOf_cases c with ⟨-, ho⟩ | ⟨h, o, os, ho, hos⟩
    · simp [ho]
    · have hnot : ∀ d : Char, 0x80 ≤ d.toNat → ¬ p d = true := fun d hd h' => by
        have := hp d h'
        omega
      simp [ho, Option.filter, hnot c h, hnot o (hos o (by simp))]

end Text

namespace Source

open Text

variable {t r : Text} {os : List Char}

/-! ## 3. Ends that bytes and characters share -/

theorem Blind.isNameStart : Blind isNameStart := by
  intro c d hc hd
  simp [Source.isNameStart, hc, hd]

theorem Blind.isNameChar : Blind isNameChar := by
  intro c d hc hd
  simp [Source.isNameChar, Source.isNameStart, hc, hd]

theorem isNameChar_of_le {c : Char} (h : 0x80 ≤ c.toNat) : isNameChar c = true := by
  simp [isNameChar, isNameStart, h]

theorem startsName_eq (t : Text) : startsName t = t.head?.any isNameStart := by
  cases t <;> rfl

theorem startsName_octets (t : Text) : startsName (octets t) = startsName t := by
  rw [startsName_eq, startsName_eq, any_head_octets Blind.isNameStart]

theorem nameLength_octets (t : Text) : nameLength (octets t) = width (t.take (nameLength t)) :=
  length_takeWhile_octets Blind.isNameChar t

theorem numberLength_octets (t : Text) :
    numberLength (octets t) = width (t.take (numberLength t)) :=
  length_takeWhile_octets ((Blind.of_lt fun _ => lt_of_isAlphanum).or (Blind.eq (by decide))) t

theorem qualifiedLength_octets (t : Text) :
    qualifiedLength (octets t) = width (t.take (qualifiedLength t)) := by
  induction t with
  | nil => rfl
  | cons c t ih =>
    rcases octetsOf_cases c with ⟨h, ho⟩ | ⟨h, o, os, ho, hos⟩
    · simp only [octets_cons, ho, List.cons_append, List.nil_append, qualifiedLength,
        startsName_octets]
      split
      · rw [ih, List.take_succ_cons, width_cons, utf8Size_ascii h, Nat.add_comm]
      · rfl
    · have hc : qualifiedLength (c :: t) = qualifiedLength t + 1 := by
        simp [qualifiedLength, isNameChar_of_le h]
      rw [octets_cons, qualifiedLength_append_chars, ih, hc, List.take_succ_cons, width_cons,
        length_octetsOf]
      intro d hd
      exact isNameChar_of_le (hos d (ho ▸ hd))

theorem lineCommentLength_append_of_le (hos : ∀ d ∈ os, 0x80 ≤ d.toNat) (r : List Char) :
    lineCommentLength (os ++ r) = os.length + lineCommentLength r := by
  induction os with
  | nil => simp
  | cons o os ih =>
    have ho := hos o (by simp)
    have hline : o ≠ '\n' := ne_of_le ho (by decide)
    have hmark : o ≠ '?' := ne_of_le ho (by decide)
    rw [List.cons_append, lineCommentLength_cons, if_neg (by simp [hline, hmark]),
      ih fun d hd => hos d (List.mem_cons_of_mem _ hd), List.length_cons]
    omega

theorem lineCommentLength_octets (t : Text) :
    lineCommentLength (octets t) = width (t.take (lineCommentLength t)) := by
  induction t with
  | nil => rfl
  | cons c t ih =>
    rcases octetsOf_cases c with ⟨h, ho⟩ | ⟨h, o, os, ho, hos⟩
    · simp only [octets_cons, ho, List.singleton_append, lineCommentLength_cons,
        head_octets (show '>'.toNat < 0x80 by decide)]
      split
      · rfl
      · rw [ih, List.take_succ_cons, width_cons, utf8Size_ascii h, Nat.add_comm]
    · have hline : c ≠ '\n' := ne_of_le h (by decide)
      have hmark : c ≠ '?' := ne_of_le h (by decide)
      rw [octets_cons, lineCommentLength_append_of_le fun d hd => hos d (ho ▸ hd), ih,
        lineCommentLength_cons, if_neg (by simp [hline, hmark]), List.take_succ_cons, width_cons,
        length_octetsOf]

theorem quotedLength_append_of_le {quote : Char} (hquote : quote.toNat < 0x80)
    (hos : ∀ d ∈ os, 0x80 ≤ d.toNat) (r : List Char) :
    quotedLength quote (os ++ r) = (quotedLength quote r).map (· + os.length) := by
  induction os with
  | nil => simp
  | cons o os ih =>
    have ho := hos o (by simp)
    rw [List.cons_append, quotedLength_cons (ne_of_le ho (by decide)), if_neg (ne_of_le ho hquote),
      ih fun d hd => hos d (List.mem_cons_of_mem _ hd), Option.map_map]
    congr 1

/-- A string ends at the same byte, also when a backslash takes along the first byte only of the
character after it: none of the others is a quote or a backslash. -/
theorem quotedLength_octets {quote : Char} (hquote : quote.toNat < 0x80) (t : Text) :
    quotedLength quote (octets t) = (quotedLength quote t).map fun n => width (t.take n) := by
  fun_induction quotedLength quote t with
  | case1 => rfl
  | case2 => rfl
  | case3 d t ih =>
    have hslash : octetsOf '\\' = ['\\'] := octetsOf_ascii (by decide)
    rw [octets_cons, octets_cons, hslash, List.singleton_append]
    rcases octetsOf_cases d with ⟨h, ho⟩ | ⟨h, o, os, ho, hos⟩
    · rw [ho, List.singleton_append, quotedLength, ih, Option.map_map, Option.map_map]
      congr 1
      funext n
      simp [utf8Size_ascii h, utf8Size_ascii (c := '\\') (by decide)]
      omega
    · have hlength := length_octetsOf d
      rw [ho, List.length_cons] at hlength
      rw [ho, List.cons_append, quotedLength, quotedLength_append_of_le hquote, ih,
        Option.map_map, Option.map_map, Option.map_map]
      · congr 1
        funext n
        simp [utf8Size_ascii (c := '\\') (by decide)]
        omega
      · intro e he
        exact hos e (List.mem_cons_of_mem _ he)
  | case4 t hend hmore =>
    have hne : quote ≠ '\\' := by
      rintro rfl
      cases t with
      | nil => exact hend rfl rfl
      | cons d t => exact hmore d t rfl rfl
    rw [octets_cons, octetsOf_ascii hquote, List.singleton_append, quotedLength_cons hne]
    simp [utf8Size_ascii hquote]
  | case5 c t hend hmore hne ih =>
    have hslash : c ≠ '\\' := by
      rintro rfl
      cases t with
      | nil => exact hend rfl rfl
      | cons d t => exact hmore d t rfl rfl
    rw [octets_cons]
    rcases octetsOf_cases c with ⟨h, ho⟩ | ⟨h, o, os, ho, hos⟩
    · rw [ho, List.singleton_append, quotedLength_cons hslash, if_neg hne, ih, Option.map_map,
        Option.map_map]
      congr 1
      funext n
      simp [utf8Size_ascii h]
      omega
    · rw [quotedLength_append_of_le hquote fun d hd => hos d (ho ▸ hd), ih, Option.map_map,
        Option.map_map]
      congr 1
      funext n
      simp
      omega

end Source

end Crosslink
