import Crosslink.Source.Piece

/-!
# What a piece can see

Where a piece of a source text ends is decided by its own characters and by a look at the few that
come next. So the pieces of `a ++ t` that lie in `a` stay the same when `t` gives way to a text that
looks the same at its outset.

* §1 The lengths of the longer pieces, one lemma each: an end found within `u` is found there again
  whatever text comes after `u`.
* §2 `Alike`, a text that no piece before it tells apart from another.
* §3 `measure_append`, for one piece, and `cutCode_append`, for all pieces of a text.
* §4 `Solid`, the texts that are cut alike whatever comes after them.
-/

namespace Crosslink.Source

variable {t t' u : Text}

/-! ## 1. Ends that are found again -/

theorem takeWhile_append_of_lt {p : Char → Bool} (x : Text)
    (h : ((u ++ t).takeWhile p).length < u.length) :
    (u ++ x).takeWhile p = (u ++ t).takeWhile p := by
  induction u with
  | nil => simp at h
  | cons c u ih =>
    cases hc : p c with
    | true =>
      simp only [List.cons_append, List.takeWhile_cons, hc, if_true, List.length_cons] at h ⊢
      rw [ih (by omega)]
    | false => simp [hc]

theorem takeWhile_append_of_le {p : Char → Bool}
    (ht : t'.head?.any p = true → t.head?.any p = true)
    (h : ((u ++ t).takeWhile p).length ≤ u.length) :
    (u ++ t').takeWhile p = (u ++ t).takeWhile p := by
  induction u with
  | nil =>
    have hnil : t.takeWhile p = [] := List.eq_nil_of_length_eq_zero (by simpa using h)
    have hstop : ∀ x : Text, x.takeWhile p = [] ↔ x.head?.any p = false := by
      intro x
      cases x with
      | nil => simp
      | cons c x => by_cases hc : p c <;> simp [hc]
    rw [List.nil_append, List.nil_append, hnil]
    refine (hstop t').mpr (Bool.eq_false_iff.mpr fun ht' => ?_)
    exact Bool.eq_false_iff.mp ((hstop t).mp hnil) (ht ht')
  | cons c u ih =>
    cases hc : p c with
    | true =>
      simp only [List.cons_append, List.takeWhile_cons, hc, if_true, List.length_cons] at h ⊢
      rw [ih (by omega)]
    | false => simp [hc]

theorem pos_of_startsName (h : startsName t = true) : 0 < (t.takeWhile isNameChar).length ∧
    0 < qualifiedLength t := by
  cases t with
  | nil => cases h
  | cons c t =>
    have hc : isNameChar c = true := by
      rw [isNameChar, show isNameStart c = true from h]
      rfl
    simp [qualifiedLength, hc]

theorem qualifiedLength_append (hname : t'.head?.any isNameChar = true → t.head?.any isNameChar = true)
    (hstart : startsName t' = true → startsName t = true)
    (hrooted : t'.head? = some '\\' ∧ startsName t'.tail → t.head? = some '\\' ∧ startsName t.tail)
    (h : qualifiedLength (u ++ t) ≤ u.length) :
    qualifiedLength (u ++ t') = qualifiedLength (u ++ t) := by
  have hzero : ∀ x : Text, qualifiedLength x = 0 ↔
      x.head?.any isNameChar = false ∧ ¬(x.head? = some '\\' ∧ startsName x.tail) := by
    intro x
    cases x with
    | nil => simp [qualifiedLength]
    | cons c x => by_cases hc : isNameChar c <;> simp [qualifiedLength, hc]
  induction u with
  | nil =>
    obtain ⟨h1, h2⟩ := (hzero t).mp (by simpa using h)
    rw [List.nil_append, List.nil_append, (hzero t).mpr ⟨h1, h2⟩]
    refine (hzero t').mpr ⟨Bool.eq_false_iff.mpr fun ht' => ?_, fun h' => h2 (hrooted h')⟩
    exact Bool.eq_false_iff.mp h1 (hname ht')
  | cons c u ih =>
    have hnext : (isNameChar c || (c = '\\' && startsName (u ++ t'))) =
        (isNameChar c || (c = '\\' && startsName (u ++ t))) := by
      cases u with
      | nil =>
        cases hs : startsName t with
        | true =>
          -- a backslash would take the name after it along
          have hpos := (pos_of_startsName hs).2
          by_cases hc : c = '\\'
          · simp only [List.cons_append, List.nil_append, qualifiedLength, hc, hs, decide_true,
              Bool.and_self, Bool.or_true, if_true, List.length_cons, List.length_nil] at h
            omega
          · simp [hc]
        | false =>
          have hs' : startsName t' = false :=
            Bool.eq_false_iff.mpr fun ht' => Bool.eq_false_iff.mp hs (hstart ht')
          simp [hs, hs']
      | cons d u => rfl
    simp only [List.cons_append, qualifiedLength, hnext, List.length_cons] at h ⊢
    split
    · rename_i hc
      rw [if_pos hc] at h
      rw [ih (by omega)]
    · rfl

theorem lineCommentLength_cons (c : Char) (cs : Text) :
    lineCommentLength (c :: cs) =
      if c = '\n' ∨ (c = '?' ∧ cs.head? = some '>') then 0 else lineCommentLength cs + 1 := by
  by_cases h1 : c = '\n'
  · subst h1
    simp [lineCommentLength]
  · by_cases h2 : c = '?' ∧ cs.head? = some '>'
    · obtain ⟨rfl, hcs⟩ := h2
      cases cs with
      | nil => simp at hcs
      | cons d cs =>
        obtain rfl : d = '>' := by simpa using hcs
        simp [lineCommentLength]
    · rw [if_neg (fun h => h.elim h1 h2), lineCommentLength]
      · exact fun h => h1 h
      · rintro cs' rfl rfl
        exact h2 ⟨rfl, rfl⟩

theorem lineCommentLength_append (hhead : t.head? = some '>' ↔ t'.head? = some '>')
    (hend : lineCommentLength (u ++ t) = u.length → lineCommentLength t = 0 →
      lineCommentLength t' = 0)
    (h : lineCommentLength (u ++ t) ≤ u.length) :
    lineCommentLength (u ++ t') = lineCommentLength (u ++ t) := by
  induction u with
  | nil =>
    have hzero : lineCommentLength t = 0 := by simpa using h
    rw [List.nil_append, List.nil_append, hzero]
    exact hend (by simpa using hzero) hzero
  | cons c u ih =>
    have hnext : (u ++ t).head? = some '>' ↔ (u ++ t').head? = some '>' := by
      cases u with
      | nil => exact hhead
      | cons d u => rfl
    simp only [List.cons_append, lineCommentLength_cons, hnext, List.length_cons] at h hend ⊢
    split
    · rfl
    · rename_i hc
      rw [if_neg hc] at h hend
      rw [ih (fun h' => hend (by omega)) (by omega)]

theorem blockCommentLength_cons (c : Char) (cs : Text) :
    blockCommentLength (c :: cs) =
      if c = '*' ∧ cs.head? = some '/' then some 2 else (blockCommentLength cs).map (· + 1) := by
  by_cases h : c = '*' ∧ cs.head? = some '/'
  · obtain ⟨rfl, hcs⟩ := h
    cases cs with
    | nil => simp at hcs
    | cons d cs =>
      obtain rfl : d = '/' := by simpa using hcs
      simp [blockCommentLength]
  · rw [if_neg h, blockCommentLength]
    rintro cs' rfl rfl
    exact h ⟨rfl, rfl⟩

theorem two_le_blockCommentLength {n : Nat} (h : blockCommentLength t = some n) : 2 ≤ n := by
  induction t generalizing n with
  | nil => simp [blockCommentLength] at h
  | cons c cs ih =>
    rw [blockCommentLength_cons] at h
    split at h
    · cases h
      exact Nat.le_refl 2
    · obtain ⟨m, hm, rfl⟩ := Option.map_eq_some_iff.mp h
      have := ih hm
      omega

theorem blockCommentLength_append (x : Text) {n : Nat} (h : blockCommentLength (u ++ t) = some n)
    (hn : n ≤ u.length) : blockCommentLength (u ++ x) = some n := by
  induction u generalizing n with
  | nil =>
    have := two_le_blockCommentLength h
    simp only [List.length_nil] at hn
    omega
  | cons c u ih =>
    have hn' := two_le_blockCommentLength h
    cases u with
    | nil =>
      simp only [List.length_cons, List.length_nil] at hn
      omega
    | cons d u =>
      rw [List.cons_append, blockCommentLength_cons] at h ⊢
      have hnext : (d :: u ++ x).head? = (d :: u ++ t).head? := rfl
      rw [hnext]
      split
      · rename_i hc
        rwa [if_pos hc] at h
      · rename_i hc
        rw [if_neg hc] at h
        obtain ⟨m, hm, rfl⟩ := Option.map_eq_some_iff.mp h
        rw [ih hm (by simp only [List.length_cons] at hn ⊢; omega)]
        rfl

theorem pos_of_quotedLength {quote : Char} {n : Nat} (h : quotedLength quote t = some n) :
    0 < n := by
  unfold quotedLength at h
  split at h
  · cases h
  · cases h
  · obtain ⟨m, -, rfl⟩ := Option.map_eq_some_iff.mp h
    omega
  · split at h
    · cases h
      omega
    · obtain ⟨m, -, rfl⟩ := Option.map_eq_some_iff.mp h
      omega

theorem quotedLength_cons {quote c : Char} (hc : c ≠ '\\') (cs : Text) :
    quotedLength quote (c :: cs) =
      if c = quote then some 1 else (quotedLength quote cs).map (· + 1) := by
  rw [quotedLength]
  · rintro rfl
    exact absurd rfl hc
  · rintro _ _ rfl
    exact absurd rfl hc

theorem quotedLength_append {quote : Char} (x : Text) :
    ∀ (u : Text) (n : Nat), quotedLength quote (u ++ t) = some n → n ≤ u.length →
      quotedLength quote (u ++ x) = some n
  | [], n, h, hn => by
    have := pos_of_quotedLength h
    simp only [List.length_nil] at hn
    omega
  | [c], n, h, hn => by
    by_cases hc : c = '\\'
    · subst hc
      cases t with
      | nil => simp [quotedLength] at h
      | cons d t =>
        obtain ⟨m, -, rfl⟩ := Option.map_eq_some_iff.mp (by simpa [quotedLength] using h)
        simp only [List.length_cons, List.length_nil] at hn
        omega
    · simp only [List.cons_append, List.nil_append, quotedLength_cons hc] at h ⊢
      split
      · rename_i hq
        rwa [if_pos hq] at h
      · rename_i hq
        rw [if_neg hq] at h
        obtain ⟨m, hm, rfl⟩ := Option.map_eq_some_iff.mp h
        have := pos_of_quotedLength hm
        simp only [List.length_cons, List.length_nil] at hn
        omega
  | c :: d :: u, n, h, hn => by
    by_cases hc : c = '\\'
    · subst hc
      obtain ⟨m, hm, rfl⟩ := Option.map_eq_some_iff.mp (by simpa [quotedLength] using h)
      have hrest := quotedLength_append x u m hm (by simp only [List.length_cons] at hn; omega)
      simp [quotedLength, hrest]
    · rw [List.cons_append, quotedLength_cons hc] at h ⊢
      split
      · rename_i hq
        rwa [if_pos hq] at h
      · rename_i hq
        rw [if_neg hq] at h
        obtain ⟨m, hm, rfl⟩ := Option.map_eq_some_iff.mp h
        rw [quotedLength_append x (d :: u) m hm
          (by simp only [List.length_cons] at hn ⊢; omega)]
        rfl

theorem markupLength_cons (c : Char) (cs : Text) :
    markupLength (c :: cs) =
      if c = '<' ∧ cs.head? = some '?' then tagLength cs.tail else markupLength cs + 1 := by
  by_cases h : c = '<' ∧ cs.head? = some '?'
  · obtain ⟨rfl, hcs⟩ := h
    cases cs with
    | nil => simp at hcs
    | cons d cs =>
      obtain rfl : d = '?' := by simpa using hcs
      simp [markupLength]
  · rw [if_neg h, markupLength]
    rintro cs' rfl rfl
    exact h ⟨rfl, rfl⟩

theorem two_le_tagLength (x : Text) : 2 ≤ tagLength x := by
  unfold tagLength
  split
  · omega
  · split <;> omega

theorem pos_of_markupLength (h : t ≠ []) : 0 < markupLength t := by
  cases t with
  | nil => exact absurd rfl h
  | cons c cs =>
    rw [markupLength_cons]
    split
    · have := two_le_tagLength cs.tail
      omega
    · omega

theorem markupLength_append (ht : t ≠ [])
    (htag : ∀ w, tagLength (w ++ t) ≤ w.length + 2 → tagLength (w ++ t') = tagLength (w ++ t))
    (h : markupLength (u ++ t) ≤ u.length) : markupLength (u ++ t') = markupLength (u ++ t) := by
  induction u with
  | nil =>
    have := pos_of_markupLength ht
    simp only [List.nil_append, List.length_nil] at h
    omega
  | cons c u ih =>
    cases u with
    | nil =>
      -- a tag that is only begun here does not end before `t`
      simp only [List.cons_append, List.nil_append, markupLength_cons, List.length_cons,
        List.length_nil] at h
      split at h
      · have := two_le_tagLength t.tail
        omega
      · have := pos_of_markupLength ht
        omega
    | cons d u =>
      have hstep : ∀ x, markupLength (c :: d :: u ++ x) =
          if c = '<' ∧ d = '?' then tagLength (u ++ x) else markupLength (d :: u ++ x) + 1 := by
        intro x
        rw [List.cons_append, markupLength_cons]
        simp
      rw [hstep] at h ⊢
      rw [hstep]
      split
      · rename_i hc
        rw [if_pos hc] at h
        exact htag u h
      · rename_i hc
        rw [if_neg hc, List.length_cons] at h
        rw [ih (by omega)]

/-- The label of a labelled text that is not at the start of a line is found on a later line. -/
theorem newline_mem_of_closingLength {label : Text} {n : Nat}
    (h : closingLength label false t = some n) : '\n' ∈ t.take n := by
  induction t generalizing n with
  | nil => simp [closingLength] at h
  | cons c cs ih =>
    simp only [closingLength, Bool.false_and, Bool.false_eq_true, if_false] at h
    obtain ⟨m, hm, rfl⟩ := Option.map_eq_some_iff.mp h
    by_cases hc : c = '\n'
    · subst hc
      simp
    · have := ih (by simpa [hc] using hm)
      simp [this]

/-- The label stands here: first on its line but for what indents it, and not as the beginning of a
longer name. -/
def closesHere (label text : Text) : Bool :=
  let rest := text.drop (text.takeWhile isIndent).length
  label.isPrefixOf rest && !((rest.drop label.length).head?.any isNameChar)

theorem closingLength_cons (label : Text) (atLine : Bool) (c : Char) (cs : Text) :
    closingLength label atLine (c :: cs) =
      if atLine && closesHere label (c :: cs) then
        some (((c :: cs).takeWhile isIndent).length + label.length)
      else (closingLength label (c = '\n') cs).map (· + 1) := by
  simp only [closingLength, closesHere, Bool.and_assoc]
  rfl

theorem closesHere_append {label : Text}
    (hname : ((u ++ t).takeWhile isIndent).length + label.length < u.length ∨
      (t'.head?.any isNameChar = true → t.head?.any isNameChar = true))
    (hlabel : label ≠ []) (h : closesHere label (u ++ t) = true)
    (hle : ((u ++ t).takeWhile isIndent).length + label.length ≤ u.length) :
    closesHere label (u ++ t') = true ∧
      (u ++ t').takeWhile isIndent = (u ++ t).takeWhile isIndent := by
  have hpos : 0 < label.length := List.length_pos_iff.mpr hlabel
  have hsame := takeWhile_append_of_lt (t := t) (p := isIndent) t' (show _ < u.length by omega)
  refine ⟨?_, hsame⟩
  simp only [closesHere, Bool.and_eq_true, hsame] at h ⊢
  rw [List.drop_append_of_le_length (by omega)] at h ⊢
  obtain ⟨hstarts, hnext⟩ := h
  generalize hv : u.drop ((u ++ t).takeWhile isIndent).length = v at hstarts hnext ⊢
  have hlen : label.length ≤ v.length := by
    rw [← hv, List.length_drop]
    omega
  obtain ⟨w, rfl⟩ : label <+: v := by
    obtain ⟨rest, hrest⟩ := List.isPrefixOf_iff_prefix.mp hstarts
    exact List.prefix_of_prefix_length_le ⟨rest, hrest⟩ (List.prefix_append v t) hlen
  have hdrop : ∀ x : Text, (label ++ w ++ x).drop label.length = w ++ x := by
    intro x
    rw [List.append_assoc, List.drop_left]
  rw [hdrop] at hnext ⊢
  refine ⟨List.isPrefixOf_iff_prefix.mpr (by rw [List.append_assoc]; exact List.prefix_append _ _),
    ?_⟩
  cases w with
  | nil =>
    have hlength := congrArg List.length hv
    simp only [List.length_drop, List.length_append, List.length_nil] at hlength
    have hname := hname.resolve_left (by omega)
    simp only [List.nil_append, Bool.not_eq_true'] at hnext ⊢
    exact Bool.eq_false_iff.mpr fun ht' => Bool.eq_false_iff.mp hnext (hname ht')
  | cons d w => simpa using hnext

theorem prefix_of_closesHere {label : Text} (h : closesHere label t = true) :
    t.takeWhile isIndent ++ label <+: t := by
  simp only [closesHere, Bool.and_eq_true] at h
  obtain ⟨r, hr⟩ := List.isPrefixOf_iff_prefix.mp h.1
  have htake : t.takeWhile isIndent = t.take (t.takeWhile isIndent).length :=
    List.prefix_iff_eq_take.mp (List.takeWhile_prefix isIndent)
  refine ⟨r, ?_⟩
  rw [List.append_assoc, hr]
  exact (congrArg (· ++ _) htake).trans (List.take_append_drop _ t)

theorem closingLength_append {label : Text}
    (hname : t'.head?.any isNameChar = true → t.head?.any isNameChar = true) (hlabel : label ≠ [])
    (hline : '\n' ∉ label) {atLine : Bool} {n : Nat}
    (h : closingLength label atLine (u ++ t) = some n) (hn : n ≤ u.length) :
    closingLength label atLine (u ++ t') = some n := by
  have hpos : 0 < label.length := List.length_pos_iff.mpr hlabel
  induction u generalizing atLine n with
  | nil =>
    exfalso
    cases t with
    | nil => simp [closingLength] at h
    | cons c cs =>
      rw [List.nil_append, closingLength_cons] at h
      split at h
      · simp only [Option.some.injEq, List.length_nil] at h hn
        omega
      · obtain ⟨m, -, rfl⟩ := Option.map_eq_some_iff.mp h
        simp at hn
  | cons c u ih =>
    rw [List.cons_append, closingLength_cons] at h ⊢
    cases hatLine : atLine with
    | false =>
      simp only [hatLine, Bool.false_and, Bool.false_eq_true, if_false] at h ⊢
      obtain ⟨m, hm, rfl⟩ := Option.map_eq_some_iff.mp h
      rw [ih hm (by simpa using hn)]
      rfl
    | true =>
      simp only [hatLine, Bool.true_and] at h ⊢
      by_cases hhere : closesHere label (c :: (u ++ t)) = true
      · rw [if_pos hhere] at h
        obtain rfl := Option.some.inj h
        obtain ⟨hhere', hsame⟩ := closesHere_append (u := c :: u) (.inr hname) hlabel hhere hn
        rw [if_pos (by simpa using hhere')]
        simp only [List.cons_append] at hsame
        rw [hsame]
      · rw [if_neg hhere] at h
        obtain ⟨m, hm, rfl⟩ := Option.map_eq_some_iff.mp h
        have hm' : m ≤ u.length := by simpa using hn
        have hnot : ¬ closesHere label (c :: (u ++ t')) = true := by
          intro hhere'
          by_cases hle : ((c :: u ++ t').takeWhile isIndent).length + label.length
              < (c :: u).length
          · exact hhere (closesHere_append (u := c :: u) (.inl hle) hlabel hhere' (Nat.le_of_lt hle)).1
          · -- all of `c :: u` is indentation and label, yet the label was found on a later line
            have hnone : '\n' ∉ c :: u := by
              intro hmem
              have hpre : c :: u <+: (c :: u ++ t').takeWhile isIndent ++ label :=
                List.prefix_of_prefix_length_le (List.prefix_append _ t')
                  (prefix_of_closesHere hhere') (by simp only [List.length_append]; omega)
              rcases List.mem_append.mp (hpre.subset hmem) with h | h
              · have := List.all_eq_true.mp List.all_takeWhile _ h
                simp [isIndent] at this
              · exact hline h
            have hmem : '\n' ∈ u := by
              have hc : ¬ c = '\n' := fun hc => hnone (by simp [hc])
              have := newline_mem_of_closingLength (by simpa [hc] using hm)
              rw [List.take_append_of_le_length hm'] at this
              exact List.mem_of_mem_take this
            exact hnone (List.mem_cons_of_mem _ hmem)
        rw [if_neg hnot, ih hm hm']
        rfl

/-- The quote before a label, where one stands. -/
def labelQuote (opening : Text) : Option Char := opening.head?.filter fun c => c = '\'' || c = '"'

/-- The number of characters from a label on, up to and including the one that closes the text.
`marks` is the number of its quotes. -/
def labelLength (quote : Option Char) (marks : Nat) (named : Text) : Except Defect Nat :=
  let label := named.take (nameLength named)
  let after := named.drop label.length
  if label = [] then .error .invalidLabel
  else if quote.isSome && after.head? ≠ quote then .error .invalidLabel
  else match closingLength label false (after.drop marks) with
    | some n => .ok (label.length + marks + n)
    | none => .error .unterminatedLabelled

theorem exists_of_map_eq_ok {ε α β : Type} {f : α → β} {e : Except ε α} {b : β}
    (h : e.map f = .ok b) : ∃ a, e = .ok a ∧ f a = b := by
  cases e with
  | error e => cases h
  | ok a => exact ⟨a, rfl, Except.ok.inj h⟩

theorem labelledLength_eq (text : Text) :
    labelledLength text =
      let indent := (text.takeWhile isIndent).length
      let quote := labelQuote (text.drop indent)
      let marks := if quote.isSome then 1 else 0
      (labelLength quote marks ((text.drop indent).drop marks)).map (indent + marks + ·) := by
  simp only [labelledLength, labelLength, ← labelQuote.eq_1]
  generalize (text.takeWhile isIndent).length = indent
  generalize labelQuote (text.drop indent) = quote
  generalize (if quote.isSome = true then 1 else 0) = marks
  generalize (text.drop indent).drop marks = named
  generalize named.take (nameLength named) = label
  generalize named.drop label.length = after
  split
  · rfl
  · split
    · rfl
    · cases closingLength label false (after.drop marks) with
      | none => rfl
      | some m => simp [Except.map, Nat.add_assoc]

/-- Reading on after `n` characters that are all in `u`. -/
theorem drop_append_eq (x : Text) {n : Nat} (h : n ≤ u.length) :
    (u ++ x).drop n = u.drop n ++ x :=
  List.drop_append_of_le_length h

theorem head?_append_eq (x y : Text) (h : 0 < u.length) : (u ++ x).head? = (u ++ y).head? := by
  cases u with
  | nil => simp at h
  | cons c u => rfl

theorem pos_of_closingLength {label : Text} {atLine : Bool} {n : Nat} (hlabel : label ≠ [])
    (h : closingLength label atLine t = some n) : 0 < n := by
  have hpos : 0 < label.length := List.length_pos_iff.mpr hlabel
  cases t with
  | nil => simp [closingLength] at h
  | cons c cs =>
    rw [closingLength_cons] at h
    split at h
    · obtain rfl := Option.some.inj h
      omega
    · obtain ⟨m, -, rfl⟩ := Option.map_eq_some_iff.mp h
      omega

theorem labelLength_append (hname : t'.head?.any isNameChar = true → t.head?.any isNameChar = true)
    {quote : Option Char} {marks n : Nat} (hmarks : quote.isSome = true → marks = 1)
    (h : labelLength quote marks (u ++ t) = .ok n) (hn : n ≤ u.length) :
    labelLength quote marks (u ++ t') = .ok n := by
  have hlabel : ∀ x : Text, x.take (nameLength x) = x.takeWhile isNameChar := fun x =>
    (List.prefix_iff_eq_take.mp (List.takeWhile_prefix isNameChar)).symm
  simp only [labelLength, hlabel] at h ⊢
  split at h
  · cases h
  · rename_i hne
    split at h
    · cases h
    · rename_i hquote
      split at h
      · rename_i m hm
        obtain rfl := Except.ok.inj h
        have hpos := pos_of_closingLength hne hm
        have hsame := takeWhile_append_of_lt (t := t) (p := isNameChar) t'
          (show _ < u.length by omega)
        rw [hsame, if_neg hne]
        generalize hl : (u ++ t).takeWhile isNameChar = label at *
        rw [drop_append_eq _ (by omega)] at hquote hm ⊢
        have hlen : label.length + (u.drop label.length).length = u.length := by
          rw [List.length_drop]
          omega
        rw [drop_append_eq _ (by omega)] at hm ⊢
        have hnl : '\n' ∉ label := by
          intro hmem
          rw [← hl] at hmem
          have := List.all_eq_true.mp List.all_takeWhile _ hmem
          simp [isNameChar, isNameStart] at this
        have hbody := closingLength_append hname hne hnl hm
          (by rw [List.length_drop]; omega)
        cases hq : quote.isSome with
        | false => rw [Bool.false_and, if_neg Bool.false_ne_true, hbody]
        | true =>
          have hhead := head?_append_eq t t' (u := u.drop label.length)
            (by have := hmarks hq; omega)
          rw [if_neg (by rwa [hq, hhead] at hquote), hbody]
      · cases h

theorem pos_of_labelLength {quote : Option Char} {marks n : Nat}
    (h : labelLength quote marks t = .ok n) : 0 < n := by
  simp only [labelLength] at h
  split at h
  · cases h
  · rename_i hne
    have hpos := List.length_pos_iff.mpr hne
    split at h
    · cases h
    · split at h
      · obtain rfl := Except.ok.inj h
        omega
      · cases h

theorem labelledLength_append
    (hname : t'.head?.any isNameChar = true → t.head?.any isNameChar = true) {n : Nat} (h : labelledLength (u ++ t) = .ok n) (hn : n ≤ u.length) :
    labelledLength (u ++ t') = .ok n := by
  rw [labelledLength_eq] at h ⊢
  simp only at h ⊢
  obtain ⟨m, hm, hnm⟩ := exists_of_map_eq_ok h
  have hpos := pos_of_labelLength hm
  rw [takeWhile_append_of_lt (t := t) (p := isIndent) t' (by omega)]
  generalize ((u ++ t).takeWhile isIndent).length = indent at hm hnm ⊢
  rw [drop_append_eq _ (by omega)] at hm hnm ⊢
  have hquote : labelQuote (u.drop indent ++ t') = labelQuote (u.drop indent ++ t) := by
    rw [labelQuote, labelQuote, head?_append_eq t' t (by rw [List.length_drop]; omega)]
  rw [hquote]
  generalize labelQuote (u.drop indent ++ t) = quote at hm hnm ⊢
  have hmarks : quote.isSome = true → (if quote.isSome = true then 1 else 0) = 1 :=
    fun hq => if_pos hq
  generalize (if quote.isSome = true then 1 else 0) = marks at hm hnm hmarks ⊢
  rw [drop_append_eq _ (by rw [List.length_drop]; omega)] at hm ⊢
  rw [labelLength_append hname hmarks hm (by simp only [List.length_drop]; omega)]
  exact congrArg Except.ok hnm

/-! ## 2. Texts that look alike at their outset -/

/-- A piece that ends before the first text ends before the second, too: the second begins with no
character that would make a piece go on unless the first does, and those that a piece looks at beyond
its end are the same. -/
structure Alike (t t' : Text) : Prop where
  ne_nil : t ≠ []
  nameChar : t'.head?.any isNameChar = true → t.head?.any isNameChar = true
  number : t'.head?.any (fun c => c.isAlphanum || c = '_') = true →
    t.head?.any (fun c => c.isAlphanum || c = '_') = true
  start : startsName t' = true → startsName t = true
  rooted : t'.head? = some '\\' ∧ startsName t'.tail → t.head? = some '\\' ∧ startsName t.tail
  head : ∀ c ∈ ['>', '[', ':', '.', '='], (t.head? = some c ↔ t'.head? = some c)
  angles : ∀ w, (w ++ t).take 2 = ['<', '<'] ↔ (w ++ t').take 2 = ['<', '<']
  arrow : ∀ w, (w ++ t).take 2 = ['-', '>'] ↔ (w ++ t').take 2 = ['-', '>']
  tag : ∀ w, tagLength (w ++ t) ≤ w.length + 2 → tagLength (w ++ t') = tagLength (w ++ t)

/-! ## 3. Pieces that stay the same -/

/-- Two choices by the same test agree when their branches do, as far as the branch taken has a
property. -/
theorem ite_agree {α : Type} {P : α → Prop} {p : Prop} [Decidable p] {a b a' b' : α}
    (hthen : p → P a → a' = a) (helse : ¬p → P b → b' = b) (h : P (if p then a else b)) :
    (if p then a' else b') = if p then a else b := by
  by_cases hp : p
  · rw [if_pos hp] at h ⊢
    rw [if_pos hp]
    exact hthen hp h
  · rw [if_neg hp] at h ⊢
    rw [if_neg hp]
    exact helse hp h

/-- A measured piece that ends within `u`. One that takes up all of `u` is no line comment, unless
`t'` ends the line as `t` does. -/
def EndsWithin (u t t' : Text) (r : PieceKind × Nat) : Prop :=
  r.2 ≤ u.length ∧ (∀ d, r.1 ≠ .broken d) ∧
    (r.2 = u.length → r.1 = .comment → lineCommentLength t = 0 → lineCommentLength t' = 0)

/-- A piece that ends within `u` is the same piece before a text that looks alike. -/
theorem measure_append (h : Alike t t') {c : Char} (hends : EndsWithin u t t' (measure c (u ++ t)))
    (hslash : c = '/' → u = [] → ∀ d ∈ ['/', '*'], (t.head? = some d ↔ t'.head? = some d)) :
    measure c (u ++ t') = measure c (u ++ t) := by
  have hhead : ∀ d ∈ ['>', '[', ':', '.', '='],
      decide ((u ++ t').head? = some d) = decide ((u ++ t).head? = some d) := by
    intro d hd
    cases u with
    | nil => exact decide_eq_decide.mpr (h.head d hd).symm
    | cons e u => rfl
  have hslashes : ∀ d ∈ ['/', '*'], (decide (c = '/') && decide ((u ++ t').head? = some d))
      = (decide (c = '/') && decide ((u ++ t).head? = some d)) := by
    intro d hd
    by_cases hc : c = '/'
    · cases u with
      | nil => exact congrArg _ (decide_eq_decide.mpr (hslash hc rfl d hd).symm)
      | cons e u => rfl
    · simp [hc]
  -- a dollar or a backslash right before `t` would take a name along
  have hstart : c = '$' ∨ c = '\\' → startsName (u ++ t') = startsName (u ++ t) := by
    intro hc
    cases u with
    | nil =>
      cases hs : startsName t with
      | true =>
        have hpos := pos_of_startsName hs
        have hle := hends.1
        obtain rfl | rfl := hc
        · have hmeasure : (measure '$' t).2 = nameLength t := by simp [measure, isAsciiBlank, hs]
          rw [List.nil_append, hmeasure, nameLength, List.length_nil] at hle
          omega
        · have hmeasure : (measure '\\' t).2 = qualifiedLength t := by
            simp [measure, isAsciiBlank, hs]
          rw [List.nil_append, hmeasure, List.length_nil] at hle
          omega
      | false =>
        refine (Bool.eq_false_iff.mpr fun ht' => ?_).trans hs.symm
        exact Bool.eq_false_iff.mp hs (h.start ht')
    | cons e u => rfl
  have hstarts : ∀ d, d = '$' ∨ d = '\\' → (decide (c = d) && startsName (u ++ t')) =
      (decide (c = d) && startsName (u ++ t)) := by
    intro d hd
    by_cases hc : c = d
    · rw [hstart (hc ▸ hd)]
    · simp [hc]
  have hangles : decide ((u ++ t').take 2 = ['<', '<']) = decide ((u ++ t).take 2 = ['<', '<']) :=
    decide_eq_decide.mpr (h.angles u).symm
  have harrow : decide ((u ++ t').take 2 = ['-', '>']) = decide ((u ++ t).take 2 = ['-', '>']) :=
    decide_eq_decide.mpr (h.arrow u).symm
  have h1 := hhead '>' (by simp)
  have h2 := hhead '[' (by simp)
  have h3 := hhead ':' (by simp)
  have h4 := hhead '.' (by simp)
  have h5 := hhead '=' (by simp)
  have h6 := hslashes '/' (by simp)
  have h7 := hslashes '*' (by simp)
  have h8 := hstarts '$' (.inl rfl)
  have h9 := hstarts '\\' (.inr rfl)
  unfold measure at hends ⊢
  simp only [decide_not, ne_eq, h1, h2, h3, h4, h5, h6, h7, h8, h9, hangles, harrow] at hends ⊢
  -- blanks
  refine ite_agree (P := EndsWithin u t t') (fun _ _ => rfl) (fun _ hends => ?_) hends
  -- inline markup
  refine ite_agree (P := EndsWithin u t t') (fun _ hends => ?_) (fun _ hends => ?_) hends
  · cases u with
    | nil => exact absurd hends.1 (by simp)
    | cons e u =>
      have hle : markupLength (u ++ t) ≤ u.length := by
        have := hends.1
        simp only [List.cons_append, List.drop_succ_cons, List.drop_zero, List.length_cons] at this
        omega
      simp only [List.cons_append, List.drop_succ_cons, List.drop_zero,
        markupLength_append h.ne_nil h.tag hle]
  -- the opening of attributes
  refine ite_agree (P := EndsWithin u t t') (fun _ _ => rfl) (fun _ hends => ?_) hends
  -- line comments
  refine ite_agree (P := EndsWithin u t t') (fun _ hends => ?_) (fun _ hends => ?_) hends
  · rw [lineCommentLength_append (h.head '>' (by simp)) (fun he => hends.2.2 he rfl) hends.1]
  -- block comments
  refine ite_agree (P := EndsWithin u t t') (fun _ hends => ?_) (fun _ hends => ?_) hends
  · cases hb : blockCommentLength ((u ++ t).drop 1) with
    | none =>
      rw [hb] at hends
      exact absurd rfl (hends.2.1 _)
    | some n =>
      have hn := two_le_blockCommentLength hb
      rw [hb] at hends
      have hle : 1 + n ≤ u.length := hends.1
      cases u with
      | nil => simp at hle
      | cons e u =>
        cases u with
        | nil =>
          simp only [List.length_cons, List.length_nil] at hle
          omega
        | cons f u =>
          have hsame := blockCommentLength_append (u := f :: u) t' hb
            (by simp only [List.length_cons] at hle ⊢; omega)
          simp only [List.cons_append, List.drop_succ_cons, List.drop_zero] at hb hsame ⊢
          rw [hsame]
          rfl
  -- quoted texts
  refine ite_agree (P := EndsWithin u t t') (fun _ hends => ?_) (fun _ hends => ?_) hends
  · cases hq : quotedLength c (u ++ t) with
    | none =>
      rw [hq] at hends
      exact absurd rfl (hends.2.1 _)
    | some n =>
      rw [hq] at hends
      rw [quotedLength_append t' u n hq hends.1]
  -- labelled texts
  refine ite_agree (P := EndsWithin u t t') (fun _ hends => ?_) (fun _ hends => ?_) hends
  · cases hl : labelledLength ((u ++ t).drop 2) with
    | error d =>
      rw [hl] at hends
      exact absurd rfl (hends.2.1 _)
    | ok n =>
      rw [hl] at hends
      have hle : 2 + n ≤ u.length := hends.1
      rw [drop_append_eq _ (by omega)] at hl ⊢
      rw [labelledLength_append h.nameChar hl (by rw [List.length_drop]; omega)]
  -- variables, names and numbers
  refine ite_agree (P := EndsWithin u t t') (fun _ hends => ?_) (fun _ hends => ?_) hends
  · rw [nameLength, nameLength, takeWhile_append_of_le h.nameChar hends.1]
  refine ite_agree (P := EndsWithin u t t') (fun _ hends => ?_) (fun _ hends => ?_) hends
  · rw [qualifiedLength_append h.nameChar h.start h.rooted hends.1]
  refine ite_agree (P := EndsWithin u t t') (fun _ hends => ?_) (fun _ hends => ?_) hends
  · rw [qualifiedLength_append h.nameChar h.start h.rooted hends.1]
  refine ite_agree (P := EndsWithin u t t') (fun _ hends => ?_) (fun _ hends => ?_) hends
  · rw [numberLength, numberLength, takeWhile_append_of_le h.number hends.1]
  -- all other pieces are as long whatever comes next
  rfl

/-- A piece that does not end takes all that is left. -/
theorem length_of_broken {c : Char} {cs : Text} {d : Defect} (h : (measure c cs).1 = .broken d) :
    (measure c cs).2 = cs.length := by
  revert h
  fun_cases measure c cs <;> intro h <;> first | rfl | cases h | (split at h <;> cases h)

/-- What the last piece before a text has to do with its outset: a lone slash would begin a comment
with it, and a line comment ends with its line. -/
def MayFollow (p : Piece) (t t' : Text) : Prop :=
  (p.text = ['/'] → ∀ d ∈ ['/', '*'], (t.head? = some d ↔ t'.head? = some d)) ∧
    (p.kind = .comment → lineCommentLength t = 0 → lineCommentLength t' = 0)

theorem cutCode_cons (c : Char) (cs : Text) :
    cutCode (c :: cs) =
      ⟨(measure c cs).1, c :: cs.take (measure c cs).2⟩ :: cutCode (cs.drop (measure c cs).2) := by
  rw [cutCode]

/-- A text that is cut into some pieces is cut into them before a text that looks alike, too. -/
theorem cutCode_append (h : Alike t t') {P : List Piece} {a : Text}
    (ha : P.flatMap Piece.text = a) (hcut : cutCode (a ++ t) = P ++ cutCode t)
    (hlast : ∀ p, P.getLast? = some p → MayFollow p t t') :
    cutCode (a ++ t') = P ++ cutCode t' := by
  induction P generalizing a with
  | nil =>
    obtain rfl : a = [] := by simpa using ha.symm
    rfl
  | cons p P ih =>
    obtain rfl : p.text ++ P.flatMap Piece.text = a := by simpa using ha
    generalize ha' : P.flatMap Piece.text = a' at *
    obtain ⟨c, cs, hcs⟩ : ∃ c cs, p.text ++ a' ++ t = c :: cs := by
      cases htext : p.text ++ a' ++ t with
      | nil => simp [h.ne_nil] at htext
      | cons c cs => exact ⟨c, cs, rfl⟩
    rw [hcs, cutCode_cons, List.cons_append, List.cons.injEq] at hcut
    obtain ⟨hp, hrest⟩ := hcut
    have hflat := congrArg (fun l => l.flatMap Piece.text) hrest
    simp only [cutCode_flatten, List.flatMap_append, ha'] at hflat
    have htake : p.text = c :: cs.take (measure c cs).2 := by rw [← hp]
    rw [hflat] at hrest
    have hlen : (measure c cs).2 ≤ cs.length := by
      refine Nat.le_of_not_lt fun hlt => ?_
      rw [List.drop_eq_nil_of_le (by omega)] at hflat
      simp [h.ne_nil] at hflat
    have hn : (cs.take (measure c cs).2).length = (measure c cs).2 := by
      rw [List.length_take]
      omega
    have hcs' : cs = cs.take (measure c cs).2 ++ a' ++ t := by
      rw [List.append_assoc, ← hflat, List.take_append_drop]
    have hlast' : a' = [] → MayFollow p t t' := by
      rintro rfl
      obtain rfl : P = [] := by simpa using hrest
      exact hlast p rfl
    have hih := ih rfl hrest fun q hq => hlast q (by
      cases P with
      | nil => simp at hq
      | cons r P => simpa using hq)
    rw [htake, List.cons_append, List.cons_append]
    generalize hu : cs.take (measure c cs).2 ++ a' = u at hcs'
    have hlenu : (measure c cs).2 + a'.length = u.length := by
      rw [← hu, List.length_append, hn]
    have hends : EndsWithin u t t' (measure c (u ++ t)) := by
      rw [← hcs']
      refine ⟨by omega, fun d hd => ?_, fun hfull hkind hzero => ?_⟩
      · have h1 := length_of_broken hd
        have h2 := congrArg List.length hcs'
        have h3 := List.length_pos_iff.mpr h.ne_nil
        rw [List.length_append] at h2
        omega
      · have ha' : a' = [] := List.eq_nil_of_length_eq_zero (by omega)
        exact (hlast' ha').2 (by rw [← hp]; exact hkind) hzero
    have hslash : c = '/' → u = [] → ∀ d ∈ ['/', '*'], (t.head? = some d ↔ t'.head? = some d) := by
      rintro rfl rfl
      obtain ⟨htaken, ha'⟩ := List.append_eq_nil_iff.mp hu
      exact (hlast' ha').1 (by rw [htake, htaken])
    have hsame := measure_append h hends hslash
    rw [← hcs'] at hsame
    have htake' : (u ++ t').take (measure c cs).2 = cs.take (measure c cs).2 := by
      rw [← hu, List.append_assoc, List.take_left' hn]
    have hdrop' : (u ++ t').drop (measure c cs).2 = a' ++ t' := by
      rw [← hu, List.append_assoc, List.drop_left' hn]
    rw [cutCode_cons, hsame, htake', hdrop', hih, hp, List.cons_append]

/-! ## 4. Which texts look alike -/

theorem toNat_of_toLower {c d : Char} (h : c.toLower = d) : c = d ∨ c.toNat + 32 = d.toNat := by
  unfold Char.toLower at h
  split at h
  · rename_i hrange
    right
    subst h
    have h1 : c.val.toNat ≤ 90 := UInt32.le_iff_toNat_le.mp hrange.2
    show c.val.toNat + 32 = (c.val + 32).toNat
    rw [UInt32.toNat_add]
    show c.val.toNat + 32 = (c.val.toNat + 32) % 2 ^ 32
    omega
  · exact Or.inl h

/-- The first characters at which a piece before them, or the tag it ends with, could go on. -/
def outsetChars : List Char := ['<', '-', '\\', 'p', 'P', 'h', 'H']

theorem toLower_ne_of_not_mem {d : Char} (hd : d ∉ outsetChars) :
    d.toLower ≠ 'p' ∧ d.toLower ≠ 'h' := by
  constructor
  · intro h
    rcases toNat_of_toLower h with h | h
    · exact hd (by simp [h, outsetChars])
    · have : d = 'P' :=
        Char.toNat_inj.mp (by have : d.toNat + 32 = 112 := h; show d.toNat = 80; omega)
      exact hd (by simp [this, outsetChars])
  · intro h
    rcases toNat_of_toLower h with h | h
    · exact hd (by simp [h, outsetChars])
    · have : d = 'H' :=
        Char.toNat_inj.mp (by have : d.toNat + 32 = 104 := h; show d.toNat = 72; omega)
      exact hd (by simp [this, outsetChars])

/-- Two texts look alike when their first characters do and cannot make a piece go on. -/
theorem alike_of_heads {d e : Char} (x y : Text) (hd : d ∉ outsetChars) (he : e ∉ outsetChars)
    (hname : isNameChar d = isNameChar e)
    (hnumber : (d.isAlphanum || d = '_') = (e.isAlphanum || e = '_'))
    (hstart : isNameStart d = isNameStart e)
    (hhead : ∀ c ∈ ['>', '[', ':', '.', '='], (d = c ↔ e = c)) : Alike (d :: x) (e :: y) where
  ne_nil := by simp
  nameChar := by simp [hname]
  number := by simp [hnumber]
  start := fun he => hstart.trans he
  rooted := by
    have h1 : d ≠ '\\' := fun h => hd (by simp [h, outsetChars])
    have h2 : e ≠ '\\' := fun h => he (by simp [h, outsetChars])
    simp [h1, h2]
  head := by simpa using hhead
  angles := by
    have h1 : d ≠ '<' := fun h => hd (by simp [h, outsetChars])
    have h2 : e ≠ '<' := fun h => he (by simp [h, outsetChars])
    rintro (_ | ⟨a, _ | ⟨b, w⟩⟩) <;> simp [h1, h2]
  arrow := by
    have h1 : d ≠ '-' := fun h => hd (by simp [h, outsetChars])
    have h2 : e ≠ '-' := fun h => he (by simp [h, outsetChars])
    have h3 := hhead '>' (by simp)
    rintro (_ | ⟨a, _ | ⟨b, w⟩⟩) <;> simp [h1, h2, h3]
  tag := by
    obtain ⟨h1, h2⟩ := toLower_ne_of_not_mem hd
    obtain ⟨h3, h4⟩ := toLower_ne_of_not_mem he
    have h5 := hhead '=' (by simp)
    rintro (_ | ⟨a, _ | ⟨b, _ | ⟨c, w⟩⟩⟩) <;>
      simp [tagLength, Text.sameLetters, Text.lower, h1, h2, h3, h4, h5]

theorem alike_of_head {d : Char} (x y : Text) (hd : d ∉ outsetChars) :
    Alike (d :: x) (d :: y) :=
  alike_of_heads x y hd hd rfl rfl rfl fun _ _ => Iff.rfl

/-- Where a name begins, no piece before it tells it from a group of attributes. -/
theorem alike_of_name {c : Char} (x y : Text) (hc : isNameStart c = true) :
    Alike (c :: x) ('#' :: y) := by
  have hne : ∀ d, isNameStart d = false → c ≠ d := by
    rintro d hd rfl
    rw [hc] at hd
    cases hd
  have h₁ := hne '<' (by decide)
  have h₂ := hne '-' (by decide)
  have h₃ := hne '>' (by decide)
  have h₄ := hne '=' (by decide)
  refine ⟨by simp, by simp [isNameChar, isNameStart], by simp, by simp [startsName, isNameStart],
    by simp, ?_, ?_, ?_, ?_⟩
  · intro d hd
    have hd' : isNameStart d = false ∧ '#' ≠ d := by
      simp only [List.mem_cons, List.not_mem_nil, or_false] at hd
      obtain rfl | rfl | rfl | rfl | rfl := hd <;> decide
    simp [hne d hd'.1, hd'.2]
  · rintro (_ | ⟨a, _ | ⟨b, w⟩⟩) <;> simp [h₁]
  · rintro (_ | ⟨a, _ | ⟨b, w⟩⟩) <;> simp [h₂, h₃]
  · -- a long tag would take some of the name along
    have hshort : ∀ z : Text, Text.sameLetters (z.take 3) "php" = false →
        tagLength z = if z.head? = some '=' then 3 else 2 := by
      intro z hz
      rw [tagLength, hz]
      rfl
    intro w hle
    by_cases hw : w.length < 3
    · have hname : Text.sameLetters ((w ++ c :: x).take 3) "php" = false := by
        refine Bool.eq_false_iff.mpr fun hp => ?_
        rw [tagLength, if_pos hp] at hle
        omega
      have hgroup : Text.sameLetters ((w ++ '#' :: y).take 3) "php" = false := by
        have hsharp : Char.toLower '#' = '#' := by decide
        obtain _ | ⟨a, _ | ⟨b, _ | ⟨d, w⟩⟩⟩ := w
        · simp [Text.sameLetters, Text.lower, hsharp]
        · simp [Text.sameLetters, Text.lower, hsharp]
        · simp [Text.sameLetters, Text.lower, hsharp]
        · simp only [List.length_cons] at hw
          omega
      rw [hshort _ hname, hshort _ hgroup]
      cases w with
      | nil => simp [h₄]
      | cons a w => rfl
    · have hhead := head?_append_eq (c :: x) ('#' :: y) (u := w) (by omega)
      rw [tagLength, tagLength, List.take_append_of_le_length (by omega),
        List.take_append_of_le_length (by omega), hhead]

theorem mayFollow_of_head (p : Piece) {d : Char} (x y : Text) (hd : d ≠ '?') :
    MayFollow p (d :: x) (d :: y) := by
  refine ⟨fun _ _ _ => Iff.rfl, fun _ hzero => ?_⟩
  rw [lineCommentLength_cons] at hzero ⊢
  simpa [hd] using hzero

theorem mayFollow_of_name (p : Piece) {c : Char} (x y : Text) (hc : isNameStart c = true) :
    MayFollow p (c :: x) ('#' :: y) := by
  have hne : ∀ d, isNameStart d = false → c ≠ d := by
    rintro d hd rfl
    rw [hc] at hd
    cases hd
  refine ⟨fun _ d hd => ?_, fun _ hzero => ?_⟩
  · have hd' : isNameStart d = false ∧ '#' ≠ d := by
      simp only [List.mem_cons, List.not_mem_nil, or_false] at hd
      obtain rfl | rfl := hd <;> decide
    simp [hne d hd'.1, hd'.2]
  · rw [lineCommentLength_cons, if_neg] at hzero
    · cases hzero
    · simp [hne '\n' (by decide), hne '?' (by decide)]

/-! ## 5. Texts that are cut alike whatever comes after them -/

/-- A text is cut into these pieces whatever comes after it. -/
def Solid (a : Text) (P : List Piece) : Prop := ∀ t, cutCode (a ++ t) = P ++ cutCode t

theorem Solid.nil : Solid [] [] := fun _ => rfl

theorem Solid.append {a b : Text} {P Q : List Piece} (ha : Solid a P) (hb : Solid b Q) :
    Solid (a ++ b) (P ++ Q) := by
  intro t
  rw [List.append_assoc, ha, hb, List.append_assoc]

theorem Solid.text {a : Text} {P : List Piece} (h : Solid a P) : P.flatMap Piece.text = a := by
  have hnil := congrArg (fun l => l.flatMap Piece.text) (h [])
  simpa [cutCode_flatten, cutCode] using hnil.symm

theorem solid_of_measure {c : Char} {w : Text} {kind : PieceKind}
    (h : ∀ t, measure c (w ++ t) = (kind, w.length)) : Solid (c :: w) [⟨kind, c :: w⟩] := by
  intro t
  rw [List.cons_append, cutCode_cons, h t, List.take_left, List.drop_left]
  rfl

/-- The kind of a character that is a piece by itself whatever comes after it. -/
def stopKind (c : Char) : Option PieceKind :=
  if isAsciiBlank c then some .blank
  else if c = '(' then some (.token .openParen)
  else if c = ')' then some (.token .closeParen)
  else if c = '[' then some (.token .openBracket)
  else if c = ']' then some (.token .closeBracket)
  else if c = '{' then some (.token .openBrace)
  else if c = '}' then some (.token .closeBrace)
  else if c = ',' then some (.token .comma)
  else if c = ';' then some (.token .semicolon)
  else none

theorem solid_stop {c : Char} {kind : PieceKind} (h : stopKind c = some kind) :
    Solid [c] [⟨kind, [c]⟩] := by
  refine solid_of_measure (w := []) fun t => ?_
  unfold stopKind at h
  split at h
  · rename_i hc
    obtain rfl := Option.some.inj h
    simp [measure, hc]
  · iterate 8
      split at h
      · rename_i hc
        obtain rfl := Option.some.inj h
        subst hc
        rfl
    cases h

theorem solid_attrOpen : Solid ['#', '['] [⟨.token .attrOpen, ['#', '[']⟩] :=
  solid_of_measure (w := ['[']) fun _ => rfl

/-- A stop makes all that stands before it solid. -/
theorem Solid.of_boundary {a b w : Text} {d : Char} {P W : List Piece}
    (ha : P.flatMap Piece.text = a) (hcut : cutCode (a ++ (d :: w ++ b)) = P ++ cutCode (d :: w ++ b))
    (hd : d ∉ outsetChars) (hd' : d ≠ '?') (hw : Solid (d :: w) W) :
    Solid (a ++ d :: w) (P ++ W) := by
  intro t
  have h := cutCode_append (alike_of_head (w ++ b) (w ++ t) hd) ha hcut
    fun p _ => mayFollow_of_head p _ _ hd'
  rw [List.append_assoc, List.append_assoc]
  exact h.trans (congrArg (P ++ ·) (hw t))

/-! ## 6. Whole sources -/

theorem contains_iff {part text : Text} :
    Text.contains part text = true ↔ part <:+: text := by
  unfold Text.contains
  induction text with
  | nil =>
    rw [Text.splitFirst]
    by_cases h : part = []
    · simp [h]
    · simp [h]
  | cons c cs ih =>
    rw [Text.splitFirst]
    split
    · rename_i h
      exact ⟨fun _ => (List.isPrefixOf_iff_prefix.mp h).isInfix, fun _ => rfl⟩
    · rename_i h
      rw [Option.isSome_map, ih, List.infix_cons_iff]
      have hstarts : ¬ part <+: c :: cs := fun h' => h (List.isPrefixOf_iff_prefix.mpr h')
      simp [hstarts]

/-- Inline markup that ends within `u` ends with a tag there. -/
theorem tag_infix_of_markupLength (ht : t ≠ []) (h : markupLength (u ++ t) ≤ u.length) :
    "<?".toList <:+: u := by
  induction u with
  | nil =>
    have := pos_of_markupLength ht
    simp only [List.nil_append, List.length_nil] at h
    omega
  | cons c u ih =>
    rw [List.cons_append, markupLength_cons] at h
    split at h
    · rename_i htag
      obtain ⟨rfl, hnext⟩ := htag
      cases u with
      | nil =>
        have := two_le_tagLength ([] ++ t).tail
        simp only [List.length_cons, List.length_nil] at h
        omega
      | cons d u =>
        obtain rfl : d = '?' := by simpa using hnext
        exact ⟨[], u, rfl⟩
    · exact List.IsInfix.trans (ih (by simpa using h)) (List.infix_cons (List.infix_refl u))

/-- A source that begins with some pieces begins with them before a text that looks alike, too. -/
theorem cut_append (h : Alike t t') {P : List Piece} {a : Text}
    (ha : P.flatMap Piece.text = a) (hne : P ≠ []) (hcut : cut (a ++ t) = P ++ cutCode t)
    (hlast : ∀ p, P.getLast? = some p → MayFollow p t t')
    (htag : "<?".toList <:+: a ++ t' → "<?".toList <:+: a ++ t) :
    cut (a ++ t') = P ++ cutCode t' := by
  unfold cut at hcut ⊢
  by_cases hc : Text.contains "<?" (a ++ t) = true
  · rw [if_pos hc] at hcut
    cases P with
    | nil => exact absurd rfl hne
    | cons p P =>
      obtain rfl : p.text ++ P.flatMap Piece.text = a := by simpa using ha
      generalize ha' : P.flatMap Piece.text = a' at *
      obtain ⟨hp, hrest⟩ := List.cons.inj hcut
      generalize hn : markupLength (p.text ++ a' ++ t) = n at hp hrest
      have hflat := congrArg (fun l => l.flatMap Piece.text) hrest
      simp only [cutCode_flatten, List.flatMap_append, List.append_eq, ha'] at hflat
      have hlen : p.text.length = n := by
        rw [← hp, List.length_take]
        refine Nat.min_eq_left (Nat.le_of_not_lt fun hlt => ?_)
        rw [List.drop_eq_nil_of_le (by omega)] at hflat
        simp [h.ne_nil] at hflat
      have hle : markupLength (p.text ++ a' ++ t) ≤ (p.text ++ a').length := by
        rw [hn, List.length_append]
        omega
      have hsame := markupLength_append h.ne_nil h.tag hle
      have htag' := tag_infix_of_markupLength h.ne_nil hle
      have hc' : Text.contains "<?" (p.text ++ a' ++ t') = true :=
        contains_iff.mpr (htag'.trans (List.infix_append' [] _ _))
      have hlast' : ∀ q, P.getLast? = some q → MayFollow q t t' := by
        intro q hq
        refine hlast q ?_
        cases P with
        | nil => simp at hq
        | cons r P => simpa using hq
      rw [hflat] at hrest
      have hkind : p.kind = .markup := by rw [← hp]
      rw [if_pos hc', hsame, hn]
      simp only [List.append_assoc, List.take_left' hlen, List.drop_left' hlen,
        cutCode_append h ha' hrest hlast', List.cons_append, ← hkind]
  · rw [if_neg hc] at hcut
    rw [if_neg (fun hc' => hc (contains_iff.mpr (htag (contains_iff.mp hc'))))]
    exact cutCode_append h ha hcut hlast

end Crosslink.Source
