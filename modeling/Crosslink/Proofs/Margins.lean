import Crosslink.Proofs.Excerpts
import Crosslink.Proofs.Layouts
import Crosslink.Proofs.Seams

/-!
# Where lines begin

No piece but a blank ends with a blank, unless the line ends after it. So where a line begins, or
where blanks begin that stand before a token, a piece begins.

* §1 The last character of a piece.
* §2 `exists_blanks`, the pieces of the blanks before a token.
-/

namespace Crosslink.Source

variable {t u source : Text} {c d : Char} {cs : Text} {n : Nat}

/-! ## §1 Last characters -/

theorem isAsciiBlank_of_isNameChar (h : isNameChar c = true) : isAsciiBlank c = false := by
  refine Bool.eq_false_iff.mpr fun hblank => ?_
  simp only [isAsciiBlank, Bool.or_eq_true, decide_eq_true_eq] at hblank
  obtain (((rfl | rfl) | rfl) | rfl) | rfl := hblank <;> revert h <;> decide

theorem last_of_takeWhile {p : Char → Bool} (h : d ∈ (t.take (t.takeWhile p).length).getLast?) :
    p d = true := by
  have htake : t.take (t.takeWhile p).length = t.takeWhile p :=
    (List.prefix_iff_eq_take.mp (List.takeWhile_prefix p)).symm
  rw [htake] at h
  exact List.all_eq_true.mp List.all_takeWhile d (List.mem_of_getLast? h)

theorem mem_of_qualifiedLength (h : d ∈ t.take (qualifiedLength t)) : isNameChar d = true ∨ d = '\\' := by
  induction t with
  | nil => simp at h
  | cons c t ih =>
    rw [qualifiedLength] at h
    split at h
    · rename_i hc
      rw [List.take_succ_cons] at h
      obtain rfl | h := List.mem_cons.mp h
      · simp only [Bool.or_eq_true, Bool.and_eq_true, decide_eq_true_eq] at hc
        exact hc.imp id And.left
      · exact ih h
    · simp at h

theorem last_of_quoted {quote : Char} : ∀ (t : Text) (n : Nat), quotedLength quote t = some n →
    n ≤ t.length ∧ (t.take n).getLast? = some quote
  | [], n, h => by simp [quotedLength] at h
  | [c], n, h => by
    by_cases hc : c = '\\'
    · subst hc
      simp [quotedLength] at h
    · rw [quotedLength_cons hc] at h
      split at h
      · rename_i hq
        obtain rfl := Option.some.inj h
        simp [hq]
      · simp [quotedLength] at h
  | c :: e :: t, n, h => by
    by_cases hc : c = '\\'
    · subst hc
      obtain ⟨m, hm, rfl⟩ := Option.map_eq_some_iff.mp (by simpa [quotedLength] using h)
      obtain ⟨hle, hlast⟩ := last_of_quoted t m hm
      refine ⟨by simp only [List.length_cons]; omega, ?_⟩
      rw [List.take_succ_cons, List.take_succ_cons, List.getLast?_cons, List.getLast?_cons, hlast]
      rfl
    · rw [quotedLength_cons hc] at h
      split at h
      · rename_i hq
        obtain rfl := Option.some.inj h
        simp [hq]
      · obtain ⟨m, hm, rfl⟩ := Option.map_eq_some_iff.mp h
        obtain ⟨hle, hlast⟩ := last_of_quoted (e :: t) m hm
        refine ⟨by simp only [List.length_cons] at hle ⊢; omega, ?_⟩
        rw [List.take_succ_cons, List.getLast?_cons, hlast]
        rfl

theorem last_of_closing {label : Text} {atLine : Bool} (hlabel : label ≠ [])
    (h : closingLength label atLine t = some n) : (t.take n).getLast? = label.getLast? := by
  induction t generalizing atLine n with
  | nil => simp [closingLength] at h
  | cons c t ih =>
    rw [closingLength_cons] at h
    split at h
    · rename_i hhere
      obtain rfl := Option.some.inj h
      simp only [Bool.and_eq_true] at hhere
      have hprefix := List.prefix_iff_eq_take.mp (prefix_of_closesHere hhere.2)
      rw [List.length_append] at hprefix
      rw [← hprefix, List.getLast?_append, List.getLast?_eq_some_getLast hlabel]
      rfl
    · obtain ⟨m, hm, rfl⟩ := Option.map_eq_some_iff.mp h
      have hlast := ih hm
      rw [List.take_succ_cons, List.getLast?_cons, hlast, List.getLast?_eq_some_getLast hlabel]
      rfl

theorem last_of_labelled (h : labelledLength t = .ok n) (hd : d ∈ (t.take n).getLast?) :
    isNameChar d = true := by
  rw [labelledLength_eq] at h
  dsimp only at h
  obtain ⟨m, hm, rfl⟩ := exists_of_map_eq_ok h
  generalize (t.takeWhile isIndent).length = indent at hm hd
  generalize (if (labelQuote (t.drop indent)).isSome = true then 1 else 0) = marks at hm hd
  generalize labelQuote (t.drop indent) = quote at hm
  unfold labelLength at hm
  dsimp only at hm
  generalize hlabel : (((t.drop indent).drop marks).take (nameLength ((t.drop indent).drop marks))) =
    label at hm
  split at hm
  · cases hm
  · rename_i hne
    split at hm
    · cases hm
    · split at hm
      · rename_i k hk
        obtain rfl := Except.ok.inj hm
        -- the text ends with its label
        have hlast := last_of_closing hne hk
        have hplace : indent + marks + (label.length + marks + k) =
            (indent + marks + label.length + marks) + k := by omega
        rw [hplace, List.take_add, List.getLast?_append] at hd
        simp only [List.drop_drop] at hlast
        rw [hlast, List.getLast?_eq_some_getLast hne] at hd
        obtain rfl := Option.some.inj hd
        have hmem := List.getLast_mem hne
        have hall : ∀ e ∈ label, isNameChar e = true := by
          intro e he
          rw [← hlabel, nameLength, ← List.prefix_iff_eq_take.mp (List.takeWhile_prefix isNameChar)] at he
          exact List.all_eq_true.mp List.all_takeWhile e he
        exact hall _ hmem
      · cases hm

theorem stopKind_of_isNameChar (h : isNameChar c = true) : stopKind c = none := by
  unfold stopKind
  rw [isAsciiBlank_of_isNameChar h, if_neg Bool.false_ne_true]
  iterate 8
    split
    · rename_i hc
      subst hc
      revert h
      decide
  rfl

theorem isAsciiBlank_of_stopKind (h : stopKind c ≠ some .blank) : isAsciiBlank c = false :=
  Bool.eq_false_iff.mpr fun hblank => h (by rw [stopKind, if_pos hblank])

theorem seals_of_stopKind {kind : TokenKind} (h : stopKind c = some (.token kind)) :
    kind.seals = true := by
  unfold stopKind at h
  split at h
  · cases h
  · iterate 8
      split at h
      · cases h
        rfl
    cases h

/-- A stop is measured as what it is. -/
theorem measure_of_stop {k : PieceKind} (h : stopKind c = some k) : (measure c cs).1 = k := by
  have hcut := (cutCode_cons c cs).symm.trans (solid_stop h cs)
  exact congrArg Piece.kind (List.cons.inj hcut).1

/-- No token ends with a stop but those that end by themselves. -/
theorem stopKind_of_last {kind : TokenKind} (h : (measure c cs).1 = .token kind)
    (hseals : kind.seals = false) (hd : d ∈ (c :: cs.take (measure c cs).2).getLast?) :
    stopKind d = none := by
  have hfirst : stopKind c = none := by
    cases hc : stopKind c with
    | none => rfl
    | some k =>
      obtain rfl := (measure_of_stop hc).symm.trans h
      rw [seals_of_stopKind hc] at hseals
      cases hseals
  suffices hrest : ∀ e ∈ (cs.take (measure c cs).2).getLast?, stopKind e = none by
    rw [List.getLast?_cons] at hd
    obtain rfl := Option.some.inj hd
    cases hl : (cs.take (measure c cs).2).getLast? with
    | none => exact hfirst
    | some e => exact hrest e hl
  clear hd
  have hone : ∀ b, cs.head? = some b → cs.take 1 = [b] := by
    intro b hb
    cases cs with
    | nil => cases hb
    | cons e cs => exact congrArg (· :: []) (Option.some.inj hb)
  revert h
  fun_cases measure c cs <;> intro h e he <;> try dsimp only at h he
  case case3 hc =>
    cases h
    cases hseals
  case case7 hc n hn =>
    rw [(last_of_quoted cs n hn).2] at he
    obtain rfl := Option.some.inj he
    exact hfirst
  case case9 hc n hn =>
    have hlabel : ∀ d ∈ ((cs.drop 2).take n).getLast?, stopKind d = none :=
      fun d hd => stopKind_of_isNameChar (last_of_labelled hn hd)
    simp only [Bool.and_eq_true, decide_eq_true_eq] at hc
    rw [List.take_add, hc.2, List.getLast?_append] at he
    cases hl : ((cs.drop 2).take n).getLast? with
    | none =>
      rw [hl] at he
      obtain rfl := Option.some.inj he
      decide
    | some d =>
      rw [hl] at he
      obtain rfl := Option.some.inj he
      exact hlabel d hl
  case case11 => exact stopKind_of_isNameChar (last_of_takeWhile he)
  case case12 | case13 =>
    obtain hname | rfl := mem_of_qualifiedLength (List.mem_of_getLast? he)
    · exact stopKind_of_isNameChar hname
    · decide
  case case14 =>
    have hchar := last_of_takeWhile he
    refine stopKind_of_isNameChar ?_
    simp only [Char.isAlphanum, Bool.or_eq_true, decide_eq_true_eq] at hchar
    simp only [isNameChar, isNameStart, Bool.or_eq_true, decide_eq_true_eq]
    tauto
  case case15 hc | case17 hc =>
    simp only [Bool.and_eq_true, decide_eq_true_eq] at hc
    rw [hone _ hc.2] at he
    obtain rfl := Option.some.inj he
    decide
  case case16 hc =>
    simp only [Bool.and_eq_true, decide_eq_true_eq] at hc
    rw [hc.2] at he
    obtain rfl := Option.some.inj he
    decide
  case case5 =>
    split at h <;> cases h
  all_goals first | cases h; done | cases he

/-- No token ends with a blank. -/
theorem last_of_token {kind : TokenKind} (h : (measure c cs).1 = .token kind)
    (hd : d ∈ (c :: cs.take (measure c cs).2).getLast?) : isAsciiBlank d = false := by
  cases hseals : kind.seals with
  | false =>
    have hnone := stopKind_of_last h hseals hd
    exact isAsciiBlank_of_stopKind (by simp [hnone])
  | true =>
    obtain ⟨hc, hzero⟩ | ⟨-, hhead, hm⟩ := measure_of_sealing h hseals
    · rw [hzero] at hd
      obtain rfl := Option.some.inj hd
      exact isAsciiBlank_of_stopKind (by simp [hc])
    · obtain ⟨w, rfl⟩ := List.head?_eq_some_iff.mp hhead
      rw [hm] at hd
      obtain rfl : '[' = d := by simpa using hd
      decide

/-- Markup that code comes after ends with a tag. -/
theorem last_of_markup (ht : t ≠ []) (h : markupLength (u ++ t) = u.length) (hd : d ∈ u.getLast?) :
    isAsciiBlank d = false := by
  induction u with
  | nil => cases hd
  | cons c u ih =>
    rw [List.cons_append, markupLength_cons] at h
    split at h
    · rename_i hc
      cases u with
      | nil =>
        have := two_le_tagLength ([] ++ t).tail
        simp only [List.length_cons, List.length_nil] at h
        omega
      | cons e w =>
        obtain rfl : e = '?' := by simpa using hc.2
        simp only [List.cons_append, List.tail_cons, List.length_cons] at h
        rw [tagLength] at h
        split at h
        · rename_i hphp
          -- the last letter of a long tag
          have hlength : w.length = 3 := by omega
          rw [List.take_append_of_le_length (by omega), List.take_of_length_le (by omega)] at hphp
          have hlower : Text.lower w = "php".toList := eq_of_beq hphp
          obtain ⟨a, b, f, rfl⟩ := List.length_eq_three.mp hlength
          obtain rfl : f = d := by simpa using hd
          have hf : f.toLower = 'p' := by
            have := congrArg List.getLast? hlower
            simpa [Text.lower] using this
          refine Bool.eq_false_iff.mpr fun hblank => ?_
          simp only [isAsciiBlank, Bool.or_eq_true, decide_eq_true_eq] at hblank
          obtain (((rfl | rfl) | rfl) | rfl) | rfl := hblank <;> revert hf <;> decide
        · split at h
          · rename_i hequals
            obtain ⟨a, rfl⟩ := List.length_eq_one_iff.mp (show w.length = 1 by omega)
            obtain rfl : a = '=' := by simpa using hequals
            obtain rfl : '=' = d := by simpa using hd
            decide
          · obtain rfl := List.length_eq_zero_iff.mp (show w.length = 0 by omega)
            obtain rfl : '?' = d := by simpa using hd
            decide
    · cases u with
      | nil =>
        have := pos_of_markupLength ht
        simp only [List.nil_append, List.length_cons, List.length_nil] at h
        omega
      | cons e w => exact ih (by simpa using h) (by simpa using hd)

theorem newline_of_lineComment : '\n' ∉ t.take (lineCommentLength t) := by
  induction t with
  | nil => simp
  | cons c t ih =>
    rw [lineCommentLength_cons]
    split
    · simp
    · rename_i hc
      rw [List.take_succ_cons, List.mem_cons, not_or]
      exact ⟨fun he => hc (.inl he.symm), ih⟩

/-! ## §2 The piece a blank belongs to -/

variable {P Q R : List Piece} {p q : Piece}

theorem last_of_tagged (hdrop : t.drop (markupLength t) ≠ [])
    (hd : d ∈ ('?' :: '>' :: t.take (markupLength t)).getLast?) : isAsciiBlank d = false := by
  rw [List.getLast?_cons_cons, List.getLast?_cons] at hd
  cases hl : (t.take (markupLength t)).getLast? with
  | none =>
    rw [hl] at hd
    obtain rfl := Option.some.inj hd
    decide
  | some e =>
    rw [hl] at hd
    obtain rfl := Option.some.inj hd
    refine last_of_markup hdrop ?_ hl
    rw [List.take_append_drop, length_of_take hdrop]

/-- A comment that ends with a blank goes on to the end of its line. -/
theorem next_of_comment (hk : (measure c cs).1 = .comment ∨ (measure c cs).1 = .doc)
    (hdrop : cs.drop (measure c cs).2 ≠ []) (hd : d ∈ (c :: cs.take (measure c cs).2).getLast?)
    (hblank : isAsciiBlank d = true) :
    d ≠ '\n' ∧ ∃ e es, cs.drop (measure c cs).2 = e :: es ∧
      (e = '\n' ∨ e = '?' ∧ es.head? = some '>') := by
  obtain ⟨rfl, hhead, hone⟩ | hline := comment_of_measure hk
  · exfalso
    cases cs with
    | nil => cases hhead
    | cons e cs =>
      obtain rfl : e = '*' := by simpa using hhead
      cases hn : blockCommentLength cs with
      | none => simp [measure, isAsciiBlank, hn] at hk
      | some n =>
        rw [measure_block cs hn] at hd
        simp only [Nat.add_comm 1 n, List.take_succ_cons, List.getLast?_cons, getLast_of_block hn] at hd
        obtain rfl : '/' = d := by simpa using hd
        cases hblank
  · rw [hline] at hd hdrop ⊢
    refine ⟨?_, (lineComment_end cs).resolve_left hdrop⟩
    rintro rfl
    obtain rfl | hmem := List.mem_cons.mp (List.mem_of_getLast? hd)
    · simp [measure, isAsciiBlank] at hk
    · exact newline_of_lineComment hmem

/-- What ends with a blank is a blank, unless it is a comment to the end of its line. -/
theorem blank_of_cutCode (h : cutCode t = p :: q :: R) (hd : d ∈ p.text.getLast?)
    (hblank : isAsciiBlank d = true)
    (hnext : d = '\n' ∨ q.kind ≠ .markup ∧ q ≠ ⟨.blank, ['\n']⟩) : p = ⟨.blank, [d]⟩ := by
  cases t with
  | nil => rw [cutCode] at h; cases h
  | cons c cs =>
    rw [cutCode_cons] at h
    obtain ⟨rfl, hrest⟩ := List.cons.inj h
    have hdrop : cs.drop (measure c cs).2 ≠ [] := by
      intro hnil
      rw [hnil, cutCode] at hrest
      cases hrest
    have hcomment : ¬ ((measure c cs).1 = .comment ∨ (measure c cs).1 = .doc) := by
      intro hk
      obtain ⟨hline, e, es, he, hend⟩ := next_of_comment hk hdrop hd hblank
      obtain ⟨hkind, hpiece⟩ := hnext.resolve_left hline
      rw [he, cutCode_cons] at hrest
      obtain ⟨rfl, -⟩ := List.cons.inj hrest
      obtain rfl | ⟨rfl, hhead⟩ := hend
      · exact hpiece (by simp [measure, isAsciiBlank])
      · exact hkind (by simp [measure, isAsciiBlank, hhead])
    cases hk : (measure c cs).1 with
    | blank =>
      obtain ⟨-, hzero⟩ := measure_of_blank hk
      rw [hzero] at hd ⊢
      obtain rfl := Option.some.inj hd
      rfl
    | token kind => exact absurd hblank (Bool.eq_false_iff.mp (last_of_token hk hd))
    | broken defect =>
      rw [length_of_broken hk] at hdrop
      simp at hdrop
    | markup =>
      obtain ⟨rfl, hhead⟩ := measure_of_markup hk
      cases cs with
      | nil => cases hhead
      | cons e cs =>
        obtain rfl : e = '>' := by simpa using hhead
        have hm : measure '?' ('>' :: cs) = (.markup, markupLength cs + 1) := by
          simp [measure, isAsciiBlank, Nat.add_comm]
        rw [hm] at hd hdrop
        exact absurd hblank (Bool.eq_false_iff.mp (last_of_tagged hdrop hd))
    | comment => exact absurd (.inl hk) hcomment
    | doc => exact absurd (.inr hk) hcomment

/-- What ends with a blank is a blank, unless it is a comment to the end of its line. -/
theorem blank_of_cut (h : cut source = P ++ p :: q :: R) (hd : d ∈ p.text.getLast?)
    (hblank : isAsciiBlank d = true)
    (hnext : d = '\n' ∨ q.kind ≠ .markup ∧ q ≠ ⟨.blank, ['\n']⟩) : p = ⟨.blank, [d]⟩ := by
  by_cases hP : P = []
  · subst hP
    unfold cut at h
    split at h
    · -- the markup that the source begins with
      obtain ⟨rfl, hrest⟩ := List.cons.inj h
      have hdrop : source.drop (markupLength source) ≠ [] := by
        intro hnil
        rw [hnil, cutCode] at hrest
        cases hrest
      refine absurd hblank (Bool.eq_false_iff.mp (last_of_markup hdrop ?_ hd))
      rw [List.take_append_drop, length_of_take hdrop]
    · exact blank_of_cutCode h hd hblank hnext
  · exact blank_of_cutCode (cut_suffix h hP).symm hd hblank hnext

theorem text_ne_nil_of_piece (h : cut source = P ++ p :: R) : p.text ≠ [] := by
  by_cases hP : P = []
  · subst hP
    unfold cut at h
    split at h
    · rename_i htag
      have hne : source ≠ [] := by
        rintro rfl
        revert htag
        decide
      obtain ⟨rfl, -⟩ := List.cons.inj h
      have hpos := pos_of_markupLength hne
      dsimp only
      rw [Ne, List.take_eq_nil_iff]
      simp only [hne, or_false]
      omega
    · exact text_ne_nil_of_cons h.symm
  · exact text_ne_nil_of_cons (cut_suffix h hP)

/-- Blanks on a line that stand before a token, or before another blank on the line, are pieces. -/
theorem exists_blanks {v w : Text} (h : cut source = P ++ q :: R) (hP : P.flatMap Piece.text = v ++ w)
    (hw : ∀ c ∈ w, isIndent c = true) (hq : q.kind ≠ .markup ∧ q ≠ ⟨.blank, ['\n']⟩) :
    ∃ A, P = A ++ blanks w ∧ A.flatMap Piece.text = v := by
  induction w using List.reverseRecOn generalizing P q R with
  | nil => exact ⟨P, (List.append_nil P).symm, by simpa using hP⟩
  | append_singleton w d ih =>
    have hd : isIndent d = true := hw d (by simp)
    have hblank : isAsciiBlank d = true ∧ d ≠ '\n' := by
      simp only [isIndent, Bool.or_eq_true, decide_eq_true_eq] at hd
      obtain rfl | rfl := hd <;> decide
    obtain rfl | ⟨P, p, rfl⟩ := List.eq_nil_or_concat P
    · simp at hP
    rw [List.concat_eq_append] at h hP ⊢
    have hcut : cut source = P ++ p :: q :: R := by rw [h]; simp
    have hlast : d ∈ p.text.getLast? := by
      have hall := congrArg List.getLast? hP
      rw [List.flatMap_append, List.flatMap_singleton, ← List.append_assoc, List.getLast?_concat,
        List.getLast?_append, List.getLast?_eq_some_getLast (text_ne_nil_of_piece hcut)] at hall
      rw [List.getLast?_eq_some_getLast (text_ne_nil_of_piece hcut)]
      exact hall
    obtain rfl := blank_of_cut hcut hlast hblank.1 (.inr hq)
    have hP' : P.flatMap Piece.text = v ++ w := by
      rw [List.flatMap_append, List.flatMap_singleton, ← List.append_assoc] at hP
      exact (List.append_inj' hP rfl).1
    obtain ⟨A, rfl, hA⟩ := ih hcut hP' (fun c hc => hw c (by simp [hc])) ⟨by simp, by simp [hblank.2]⟩
    exact ⟨A, by simp [blanks], hA⟩

end Crosslink.Source
