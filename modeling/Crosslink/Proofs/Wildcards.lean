import Mathlib.Tactic.Tauto
import Crosslink.Glob

/-!
# What patterns match

A pattern stands for a set of byte sequences, which is read off its elements. The matcher follows
the pattern along a path with one mark for every place that can be reached. The obstruction is that
marks are kept in one list for the whole path, while a piece of a pattern speaks of the bytes
between two places: so a place is named here by the bytes that follow it (`Reached`), and a step on
marks is right when it carries each mark over one piece of what it stands for (`Carries`). Steps that
are right can be made one after the other and side by side, which takes the elements of any pattern
along with no further word on marks.

## Main statements

§1 What elements stand for
§2 Places reached
§3 Steps on marks
§4 The matcher: `isMatch_iff`
-/

namespace Crosslink.Glob

/-! ## §1 What elements stand for -/

/-- The bytes that an atom stands for. -/
def Atom.Matches : Atom → List UInt8 → Prop
  | literal c, piece => piece = String.utf8EncodeChar c
  | any, piece => ∃ b, piece = [b]
  | star, _ => True
  | leading, piece => piece = [] ∨ ∃ directories, piece = directories ++ [slash]
  | trailing, piece => ∃ inside, piece = slash :: inside
  | between, piece => piece = [slash] ∨ ∃ directories, piece = slash :: (directories ++ [slash])
  | oneOf negated ranges, piece => ∃ b, piece = [b] ∧
      ((∃ range ∈ ranges, ∃ r ∈ byteRanges range, r.1 ≤ b ∧ b ≤ r.2) ↔ negated = false)

mutual

/-- The bytes that an element stands for. -/
def Element.Matches : Element → List UInt8 → Prop
  | .atom a, piece => a.Matches piece
  | .either alternatives, piece =>
    if areAllBlank alternatives then piece = [] else MatchesEither alternatives piece

/-- The bytes that elements stand for, one after the other. -/
def MatchesAll : List Element → List UInt8 → Prop
  | [], piece => piece = []
  | e :: es, piece => ∃ front back, piece = front ++ back ∧ e.Matches front ∧ MatchesAll es back

/-- The bytes that some of the alternatives stands for. One without an atom does not count. -/
def MatchesEither : List (List Element) → List UInt8 → Prop
  | [], _ => False
  | alternative :: rest, piece =>
    (areBlank alternative = false ∧ MatchesAll alternative piece) ∨ MatchesEither rest piece

end

/-! ## §2 Places reached -/

variable {bytes after : List UInt8} {marks : List Bool} {before here : Bool}

/-- There is a mark at the place that the bytes `after` follow. -/
def Reached : List Bool → List UInt8 → List UInt8 → Prop
  | [], _, _ => False
  | m :: _, [], after => m = true ∧ after = []
  | m :: marks, b :: bytes, after => (m = true ∧ after = b :: bytes) ∨ Reached marks bytes after

/-- There is one mark for every byte and one for the end. -/
def Fits (bytes : List UInt8) (marks : List Bool) : Prop := marks.length = bytes.length + 1

theorem fits_nil : Fits [] marks ↔ ∃ m, marks = [m] := by
  simp [Fits, List.length_eq_one_iff]

theorem fits_cons {b : UInt8} :
    Fits (b :: bytes) marks ↔ ∃ m rest, marks = m :: rest ∧ Fits bytes rest := by
  cases marks with
  | nil => simp [Fits]
  | cons m marks =>
    rw [Fits, List.length_cons, List.length_cons, Nat.add_right_cancel_iff]
    refine ⟨fun h => ⟨m, marks, rfl, h⟩, ?_⟩
    rintro ⟨_, _, ⟨⟩, h⟩
    exact h

/-- A place further on is in the rest. -/
theorem exists_append_eq_cons {b d : UInt8} :
    (∃ front, b :: bytes = front ++ d :: after) ↔
      (b = d ∧ bytes = after) ∨ ∃ front, bytes = front ++ d :: after := by
  constructor
  · rintro ⟨front, h⟩
    cases front with
    | nil => exact .inl (List.cons.inj h)
    | cons c front => exact .inr ⟨front, (List.cons.inj h).2⟩
  · rintro (⟨rfl, rfl⟩ | ⟨front, rfl⟩)
    · exact ⟨[], rfl⟩
    · exact ⟨b :: front, rfl⟩

/-- Without marks no place is reached. -/
theorem not_reached_map_false {α : Type} (xs : List α) (bytes after : List UInt8) :
    ¬ Reached (xs.map fun _ => false) bytes after := by
  induction xs generalizing bytes with
  | nil => exact id
  | cons x xs ih =>
    cases bytes with
    | nil => simp [Reached]
    | cons b bytes =>
      simpa only [List.map_cons, Reached, Bool.false_eq_true, false_and, false_or] using ih bytes

/-- At the start there is a mark in front of all bytes, and no other. -/
theorem reached_start : Reached (true :: bytes.map fun _ => false) bytes after ↔ after = bytes := by
  cases bytes with
  | nil => simp [Reached]
  | cons b bytes => simp only [Reached, not_reached_map_false, true_and, or_false]

/-- The last mark is the one at the end. -/
theorem reached_end (h : Fits bytes marks) : Reached marks bytes [] ↔ marks.getLastD false = true := by
  induction bytes generalizing marks with
  | nil =>
    obtain ⟨m, rfl⟩ := fits_nil.mp h
    simp [Reached]
  | cons b bytes ih =>
    obtain ⟨m, rest, rfl, hrest⟩ := fits_cons.mp h
    rw [Reached, ih hrest]
    cases rest with
    | nil => simp [Fits] at hrest
    | cons m' rest => simp

/-! ## §3 Steps on marks -/

/-- A step on the marks of some bytes is right for a set of pieces when a place can be reached after
it from which such a piece leads back to one that could be reached before. -/
structure Carries (bytes : List UInt8) (pieces : List UInt8 → Prop) (f : List Bool → List Bool) :
    Prop where
  fits {marks : List Bool} : Fits bytes marks → Fits bytes (f marks)
  reached {marks : List Bool} {after : List UInt8} : Fits bytes marks →
    (Reached (f marks) bytes after ↔ ∃ piece, pieces piece ∧ Reached marks bytes (piece ++ after))

section Steps

variable {pieces pieces' : List UInt8 → Prop} {f g : List Bool → List Bool}

theorem Carries.congr (h : Carries bytes pieces f) (hpieces : ∀ piece, pieces piece ↔ pieces' piece) :
    Carries bytes pieces' f :=
  (funext fun piece => propext (hpieces piece) : pieces = pieces') ▸ h

theorem carries_nothing : Carries bytes (· = []) id where
  fits h := h
  reached _ := by simp

/-- One step after the other carries the marks over a piece of each. -/
theorem Carries.andThen (hf : Carries bytes pieces f) (hg : Carries bytes pieces' g) :
    Carries bytes (fun piece => ∃ front back, piece = front ++ back ∧ pieces front ∧ pieces' back)
      fun marks => g (f marks) where
  fits h := hg.fits (hf.fits h)
  reached h := by
    rw [hg.reached (hf.fits h)]
    simp only [hf.reached h]
    constructor
    · rintro ⟨back, hback, front, hfront, h⟩
      exact ⟨front ++ back, ⟨front, back, rfl, hfront, hback⟩, by rwa [List.append_assoc]⟩
    · rintro ⟨_, ⟨front, back, rfl, hfront, hback⟩, h⟩
      exact ⟨back, hback, front, hfront, by rwa [List.append_assoc] at h⟩

theorem reached_zipWith {marks' : List Bool} (h : Fits bytes marks) (h' : Fits bytes marks') :
    Reached (List.zipWith (· || ·) marks marks') bytes after ↔
      Reached marks bytes after ∨ Reached marks' bytes after := by
  induction bytes generalizing marks marks' with
  | nil =>
    obtain ⟨m, rfl⟩ := fits_nil.mp h
    obtain ⟨m', rfl⟩ := fits_nil.mp h'
    simp [Reached, or_and_right]
  | cons b bytes ih =>
    obtain ⟨m, rest, rfl, hrest⟩ := fits_cons.mp h
    obtain ⟨m', rest', rfl, hrest'⟩ := fits_cons.mp h'
    rw [List.zipWith_cons_cons, Reached, Reached, Reached, ih hrest hrest', Bool.or_eq_true]
    tauto

/-- Steps side by side carry the marks over a piece of either. -/
theorem Carries.or (hf : Carries bytes pieces f) (hg : Carries bytes pieces' g) :
    Carries bytes (fun piece => pieces piece ∨ pieces' piece)
      fun marks => List.zipWith (· || ·) (f marks) (g marks) where
  fits h := by
    have hf' : (f _).length = _ := hf.fits h
    have hg' : (g _).length = _ := hg.fits h
    simp [Fits, hf', hg']
  reached h := by
    rw [reached_zipWith (hf.fits h) (hg.fits h), hf.reached h, hg.reached h, ← exists_or]
    simp only [or_and_right]

theorem carries_none : Carries bytes (fun _ => False) (List.map fun _ => false) where
  fits h := by simpa [Fits] using h
  reached _ := iff_of_false (not_reached_map_false _ _ _) (by simp)

end Steps

/-! ### The three ways to carry marks -/

theorem fits_carryByte (right : UInt8 → Bool) (here : Bool) (h : Fits bytes marks) :
    Fits bytes (carryByte right here marks bytes) := by
  induction bytes generalizing marks here with
  | nil =>
    obtain ⟨m, rfl⟩ := fits_nil.mp h
    rfl
  | cons b bytes ih =>
    obtain ⟨m, rest, rfl, hrest⟩ := fits_cons.mp h
    exact fits_cons.mpr ⟨here, _, rfl, ih _ hrest⟩

theorem reached_carryByte (right : UInt8 → Bool) (here : Bool) (h : Fits bytes marks) :
    Reached (carryByte right here marks bytes) bytes after ↔
      (here = true ∧ after = bytes) ∨ ∃ b, right b = true ∧ Reached marks bytes (b :: after) := by
  induction bytes generalizing marks here with
  | nil =>
    obtain ⟨m, rfl⟩ := fits_nil.mp h
    simp [carryByte, Reached]
  | cons b bytes ih =>
    obtain ⟨m, rest, rfl, hrest⟩ := fits_cons.mp h
    rw [carryByte, Reached, ih _ hrest]
    simp only [Reached, Bool.and_eq_true, List.cons.injEq, and_or_left, exists_or]
    grind

/-- Marks carried over one byte. -/
theorem carries_byte (right : UInt8 → Bool) :
    Carries bytes (fun piece => ∃ b, piece = [b] ∧ right b = true)
      fun marks => carryByte right false marks bytes where
  fits h := fits_carryByte right false h
  reached h := by
    rw [reached_carryByte right false h]
    simp only [Bool.false_eq_true, false_and, false_or]
    constructor
    · rintro ⟨b, hb, h⟩
      exact ⟨[b], ⟨b, rfl, hb⟩, h⟩
    · rintro ⟨_, ⟨b, rfl, hb⟩, h⟩
      exact ⟨b, hb, h⟩

theorem length_carryAnywhere (before : Bool) (marks : List Bool) :
    (carryAnywhere before marks).length = marks.length := by
  induction marks generalizing before with
  | nil => rfl
  | cons m marks ih => simp [carryAnywhere, ih]

theorem reached_carryAnywhere (before : Bool) (h : Fits bytes marks) :
    Reached (carryAnywhere before marks) bytes after ↔
      (before = true ∧ after <:+ bytes) ∨ ∃ piece, Reached marks bytes (piece ++ after) := by
  induction bytes generalizing marks before with
  | nil =>
    obtain ⟨m, rfl⟩ := fits_nil.mp h
    cases before <;> simp [carryAnywhere, Reached]
  | cons b bytes ih =>
    obtain ⟨m, rest, rfl, hrest⟩ := fits_cons.mp h
    have hsuffix : (∃ piece, piece ++ after = b :: bytes) ↔ after = b :: bytes ∨ after <:+ bytes :=
      List.suffix_cons_iff
    rw [carryAnywhere, Reached, ih _ hrest, List.suffix_cons_iff]
    simp only [Reached, Bool.or_eq_true, exists_or, exists_and_left, hsuffix]
    tauto

/-- Marks carried over any bytes. -/
theorem carries_anywhere : Carries bytes (fun _ => True) (carryAnywhere false) where
  fits h := (length_carryAnywhere false _).trans h
  reached h := by simp [reached_carryAnywhere false h]

theorem length_carryDirectories (bytes : List UInt8) (before here : Bool) (marks : List Bool) :
    (carryDirectories before here marks bytes).length = marks.length := by
  induction marks generalizing before here bytes with
  | nil => rfl
  | cons m marks ih => cases bytes <;> simp [carryDirectories, ih]

theorem reached_carryDirectories (before here : Bool) (h : Fits bytes marks) :
    Reached (carryDirectories before here marks bytes) bytes after ↔
      ((here = true ∧ after = bytes) ∨ (before = true ∧ ∃ front, bytes = front ++ slash :: after)) ∨
        Reached marks bytes after ∨ ∃ front, Reached marks bytes (front ++ slash :: after) := by
  induction bytes generalizing marks before here with
  | nil =>
    obtain ⟨m, rfl⟩ := fits_nil.mp h
    simp [carryDirectories, Reached, or_and_right]
  | cons b bytes ih =>
    obtain ⟨m, rest, rfl, hrest⟩ := fits_cons.mp h
    have hfront : (∃ front, front ++ slash :: after = b :: bytes) ↔
        (b = slash ∧ bytes = after) ∨ ∃ front, bytes = front ++ slash :: after := by
      rw [← exists_append_eq_cons]
      exact exists_congr fun _ => eq_comm
    rw [carryDirectories, Reached, ih _ _ hrest, exists_append_eq_cons]
    simp only [Reached, Bool.or_eq_true, Bool.and_eq_true, decide_eq_true_eq, exists_or,
      exists_and_left, hfront]
    grind

/-- Marks carried over directories or none. -/
theorem carries_directories :
    Carries bytes (fun piece => piece = [] ∨ ∃ directories, piece = directories ++ [slash])
      fun marks => carryDirectories false false marks bytes where
  fits h := (length_carryDirectories _ _ _ _).trans h
  reached h := by
    rw [reached_carryDirectories false false h]
    simp only [Bool.false_eq_true, false_and, or_self, false_or]
    constructor
    · rintro (h | ⟨front, h⟩)
      · exact ⟨[], .inl rfl, h⟩
      · exact ⟨front ++ [slash], .inr ⟨front, rfl⟩, by simpa using h⟩
    · rintro ⟨_, rfl | ⟨front, rfl⟩, h⟩
      · exact .inl h
      · exact .inr ⟨front, by simpa using h⟩

/-- Several bytes are carried one by one. -/
theorem carries_bytes (bs : List UInt8) :
    Carries bytes (· = bs) fun marks =>
      bs.foldl (fun marks b => carryByte (· = b) false marks bytes) marks := by
  induction bs with
  | nil => exact carries_nothing
  | cons b bs ih =>
    refine ((carries_byte (· = b)).andThen ih).congr fun piece => ?_
    simp only [decide_eq_true_eq]
    constructor
    · rintro ⟨_, _, rfl, ⟨_, rfl, rfl⟩, rfl⟩
      rfl
    · rintro rfl
      exact ⟨[b], bs, rfl, ⟨b, rfl, rfl⟩, rfl⟩

theorem carries_slash : Carries bytes (· = [slash])
    fun marks => carryByte (· = slash) false marks bytes :=
  carries_bytes [slash]

/-! ## §4 The matcher -/

/-- The step for an atom is right for what it stands for. -/
theorem Atom.carries (a : Atom) (bytes : List UInt8) : Carries bytes a.Matches (a.carry bytes) := by
  cases a with
  | literal c => exact carries_bytes (String.utf8EncodeChar c)
  | any => exact (carries_byte fun _ => true).congr fun piece => by simp [Atom.Matches]
  | star => exact carries_anywhere
  | leading => exact carries_directories
  | trailing =>
    refine (carries_slash.andThen carries_anywhere).congr fun piece => ?_
    simp [Atom.Matches]
  | between =>
    refine (carries_slash.andThen carries_directories).congr fun piece => ?_
    simp only [Atom.Matches]
    constructor
    · rintro ⟨_, _, rfl, rfl, rfl | ⟨directories, rfl⟩⟩
      · exact .inl rfl
      · exact .inr ⟨directories, rfl⟩
    · rintro (rfl | ⟨directories, rfl⟩)
      · exact ⟨[slash], [], rfl, rfl, .inl rfl⟩
      · exact ⟨[slash], _, rfl, rfl, .inr ⟨directories, rfl⟩⟩
  | oneOf negated ranges =>
    refine (carries_byte _).congr fun piece => exists_congr fun b => and_congr_right fun _ => ?_
    cases negated <;> simp

mutual

/-- The step for an element is right for what it stands for. -/
theorem Element.carries (bytes : List UInt8) :
    ∀ e : Element, Carries bytes e.Matches fun marks => e.carry bytes marks
  | .atom a => a.carries bytes
  | .either alternatives => by
    by_cases hblank : areAllBlank alternatives = true
    · simp only [Element.Matches, Element.carry, hblank, if_true]
      exact carries_nothing
    · simp only [Element.Matches, Element.carry, hblank]
      exact carries_either bytes alternatives

/-- The step for elements one after the other is right for what they stand for. -/
theorem carries_all (bytes : List UInt8) :
    ∀ es : List Element, Carries bytes (MatchesAll es) fun marks => carryAll bytes marks es
  | [] => carries_nothing
  | e :: es => (e.carries bytes).andThen (carries_all bytes es)

/-- The step for alternatives is right for what they stand for. -/
theorem carries_either (bytes : List UInt8) :
    ∀ es : List (List Element), Carries bytes (MatchesEither es) fun marks => carryEach bytes marks es
  | [] => carries_none
  | alternative :: rest => by
    by_cases hblank : areBlank alternative = true
    · simp only [MatchesEither, carryEach, hblank, if_true]
      exact (carries_either bytes rest).congr fun piece => by simp
    · simp only [MatchesEither, carryEach, hblank]
      exact ((carries_all bytes alternative).or (carries_either bytes rest)).congr fun piece => by
        simp

end

/-- A path is matched by a pattern that stands for its bytes. Only to a path that ends in two dots a
pattern for files of some name or extension is blind. -/
theorem isMatch_iff {g : Glob} {path : Text} :
    g.isMatch path = true ↔ MatchesAll g.elements (Digest.utf8 path) ∧
      ¬ (g.form.namesFile = true ∧ Text.lastSegment "/" path = "..") := by
  have hstart : Fits (Digest.utf8 path) (true :: (Digest.utf8 path).map fun _ => false) := by
    simp [Fits]
  have hrun := carries_all (Digest.utf8 path) g.elements
  have hend : (∃ piece, MatchesAll g.elements piece ∧ piece ++ [] = Digest.utf8 path) ↔
      MatchesAll g.elements (Digest.utf8 path) := by simp
  rw [isMatch, Bool.and_eq_true, ← reached_end (hrun.fits hstart), hrun.reached hstart]
  simp only [reached_start, hend, Bool.not_eq_true', ← Bool.not_eq_true, Bool.and_eq_true,
    decide_eq_true_eq]

end Crosslink.Glob
