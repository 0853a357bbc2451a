import Crosslink.Proofs.Collecting
import Crosslink.Proofs.Excerpts

/-!
# Words that begin no statement

The words of arguments name classes, and a class may be called `use` or `namespace`. Such a word is
followed by a double colon or a colon, so that the walk that collects imports is not led astray.

* §1 `Harmless`, the words of which that is so.
* §2 `passes_of_words`, pieces with such words are passed over.
-/

namespace Crosslink.Source

open TokenSequence

variable {source : Text} {l l' : TokenSequence} {A M Q : List Piece} {c : Nat}

/-! ## 1. Harmless words -/

/-- True for the word that begins an import. -/
def isUse (w : Word) : Prop := w.1 = .name ∧ Text.sameLetters w.2 "use" = true

/-- True for the words that can begin a statement the walk takes in. -/
def BeginsStatement (w : Word) : Prop :=
  w.1 = .name ∧ (Text.sameLetters w.2 "use" = true ∨ Text.sameLetters w.2 "namespace" = true)

/-- Words of which none begins a statement: where one could, a double colon or a colon comes next. -/
def Harmless : List Word → Prop
  | [] => True
  | w :: ws => (BeginsStatement w → ∃ v ∈ ws.head?, v.1 = .doubleColon ∨ v.1 = .colon) ∧ Harmless ws

theorem Harmless.append {ws vs : List Word} (hw : Harmless ws) (hv : Harmless vs) :
    Harmless (ws ++ vs) := by
  induction ws with
  | nil => exact hv
  | cons w ws ih =>
    refine ⟨fun h => ?_, ih hw.2⟩
    obtain ⟨v, hmem, hkind⟩ := hw.1 h
    refine ⟨v, ?_, hkind⟩
    cases ws with
    | nil => cases hmem
    | cons u us => exact hmem

theorem not_beginsStatement_of_kind {w : Word} (h : w.1 ≠ .name) : ¬ BeginsStatement w :=
  fun hw => h hw.1

theorem Harmless.cons {w : Word} {ws : List Word} (hw : ¬ BeginsStatement w) (h : Harmless ws) :
    Harmless (w :: ws) := ⟨fun hb => absurd hb hw, h⟩

theorem Harmless.getElem {ws : List Word} (h : Harmless ws) {j : Nat} {w : Word}
    (hj : ws[j]? = some w) (hw : BeginsStatement w) :
    ∃ v, ws[j + 1]? = some v ∧ (v.1 = .doubleColon ∨ v.1 = .colon) := by
  induction ws generalizing j with
  | nil => cases hj
  | cons u us ih =>
    cases j with
    | zero =>
      obtain rfl : u = w := by simpa using hj
      obtain ⟨v, hv, hkind⟩ := h.1 hw
      exact ⟨v, by rw [List.getElem?_cons_succ, ← List.head?_eq_getElem?]; exact hv, hkind⟩
    | succ j => exact ih h.2 (by simpa using hj)

/-- Two words with the letters of one text have the letters of each other. -/
theorem lower_eq {a b : Text} (h : Text.sameLetters a b = true) : Text.lower a = Text.lower b := by
  simpa [Text.sameLetters] using h

theorem not_beginsStatement_of_class {word : Text} (h : Text.sameLetters word "class" = true) :
    ¬ BeginsStatement (.name, word) := by
  rintro ⟨-, hw | hw⟩
  · have := (lower_eq h).symm.trans (lower_eq hw)
    exact absurd this (by decide)
  · have := (lower_eq h).symm.trans (lower_eq hw)
    exact absurd this (by decide)

theorem Atom.Written.harmless {atoms : List Atom} {ws : List Word} (h : Atom.Written atoms ws) :
    Harmless ws := by
  induction h with
  | literal value quoted => exact .cons (not_beginsStatement_of_kind (by simp)) trivial
  | constant name word h =>
    refine ⟨fun _ => ⟨_, rfl, .inl rfl⟩, .cons (not_beginsStatement_of_kind (by simp)) ?_⟩
    exact .cons (not_beginsStatement_of_class h) trivial
  | join left right ihl ihr => exact ihl.append (.cons (not_beginsStatement_of_kind (by simp)) ihr)

/-- No word of an argument begins a statement. -/
theorem Expression.Written.harmless {e : Expression} {ws : List Word} (h : e.Written ws) :
    Harmless ws := by
  cases h with
  | bare h => exact h.harmless
  | labelled label h =>
    exact ⟨fun _ => ⟨_, rfl, .inr rfl⟩, .cons (not_beginsStatement_of_kind (by simp)) h.harmless⟩

/-! ## 2. Pieces that are passed over -/

/-- Pieces whose words are harmless are passed over by the walk that collects imports. -/
theorem passes_of_words (hl' : tokenize source = .ok l') (hcut : cut source = A ++ (M ++ Q))
    (hharmless : Harmless (M.filterMap wordOf))
    (hkinds : ∀ kind ∈ kindsIn M, kind ∉ [TokenKind.openBrace, .closeBrace, .semicolon])
    (hc : c < countIn A) (hclose : l.kindAt c = some .closeParen)
    (hleft : l.kindAt (countIn A - 1) = some .name →
      ∀ kind ∈ [TokenKind.name, .openBrace, .openParen],
        l.kindAt (countIn A) ≠ some kind ∧ l'.kindAt (countIn A) ≠ some kind) :
    Passes l l' c (countIn A) (countIn M) := by
  refine ⟨hc, hclose, hleft, fun j hj kind hmem he => ?_, fun j hj text hword hstmt => ?_⟩
  · rw [← kindsIn_eq hl' hcut hj] at he
    exact hkinds kind (List.mem_of_getElem? he) hmem
  · rw [countIn, wordAt_block hl' hcut hj] at hword
    obtain ⟨v, hv, hkind⟩ := hharmless.getElem hword ⟨rfl, hstmt⟩
    have hlt : j + 1 < (M.filterMap wordOf).length := (List.getElem?_eq_some_iff.mp hv).1
    have hnext := wordAt_block hl' hcut hlt
    rw [hv] at hnext
    have hat : l'.kindAt (countIn A + j + 1) = some v.1 := by
      rw [kindAt_eq, countIn, show (A.filterMap wordOf).length + j + 1 =
        (A.filterMap wordOf).length + (j + 1) by omega, hnext]
      rfl
    rw [hat]
    exact hkind.imp (congrArg some) (congrArg some)

end Crosslink.Source
