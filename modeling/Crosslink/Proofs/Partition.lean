import Crosslink.Proofs.Checked.Readers

/-!
# The tokens of a source divide it

What `tokenize` gives is held against the source itself. The tokens stand in it one behind the other
with the text between them, and what is between is told by the form of comments and inline markup
alone, not by how pieces are measured. The documentation comments keep clear of the tokens, and the
brackets pair and nest.

* §1 `Filler`, the texts that may stand around tokens.
* §2 What the pieces that are no tokens look like.
* §3 `gapAt`, the text before a token or after the last one.
* §4 `spansIn`, the spans of the pieces of some kind.
* §5 Documentation comments.
* §6 Brackets as they are written.
* §7 `Partition`, what holds of the tokens of a source.

## Main statements

* `partition_of_tokenize`: the tokens of a source divide it.
-/

namespace Crosslink.Source

open TokenSequence

variable {source gap rest t : Text} {l : TokenSequence} {i j n : Nat} {A M P Q R : List Piece}
  {p q : Piece} {c : Char} {cs : Text} {d : Span}

/-! ## §1 What may stand around tokens -/

/-- A line comment ends before this text. -/
def EndsLine (text : Text) : Prop :=
  text = [] ∨ (∃ more : Text, text = '\n' :: more) ∨ ∃ more : Text, text = '?' :: '>' :: more

/-- The text is the tag that leads from inline markup back to code, the longest there is where
`rest` comes after it. -/
def IsTag (tag rest : Text) : Prop :=
  Text.sameLetters tag "<?php" = true ∨ tag = "<?=" ∨
    (tag = "<?" ∧ rest.head? ≠ some '=' ∧ Text.sameLetters (rest.take 3) "php" = false)

/-- The text `gap`, with `rest` coming after it, holds no code: it consists of ASCII blanks, of
comments, and of inline markup with its tags. -/
inductive Filler : Text → Text → Prop
  | nil (rest : Text) : Filler [] rest
  | blank {c : Char} {gap rest : Text} (blank : isAsciiBlank c = true) (more : Filler gap rest) :
      Filler (c :: gap) rest
  /-- A comment to the end of its line or to a closing tag. -/
  | line {mark body gap rest : Text}
      (opens : (mark = "#" ∧ body.head? ≠ some '[') ∨ mark = "//") (sameLine : '\n' ∉ body)
      (noTag : ¬ "?>".toList <:+: body) (ends : EndsLine (gap ++ rest)) (more : Filler gap rest) :
      Filler (mark ++ (body ++ gap)) rest
  /-- A comment between marks. -/
  | block {body gap rest : Text} (noEnd : ¬ "*/".toList <:+: body) (more : Filler gap rest) :
      Filler ("/*" ++ (body ++ ("*/" ++ gap))) rest
  /-- Inline markup between tags. -/
  | markup {html tag gap rest : Text} (noTag : ¬ "<?".toList <:+: html)
      (isTag : IsTag tag (gap ++ rest)) (more : Filler gap rest) :
      Filler ("?>" ++ (html ++ (tag ++ gap))) rest
  /-- Inline markup to the end of the source. -/
  | last {html : Text} (noTag : ¬ "<?".toList <:+: html) : Filler ("?>" ++ html) []

/-- The text `gap` that a source begins with, with `rest` coming after it, holds no code. A source
with a tag begins with inline markup. -/
inductive Outset : Text → Text → Prop
  | code {gap rest : Text} (noTag : ¬ "<?".toList <:+: gap ++ rest) (more : Filler gap rest) :
      Outset gap rest
  | markup {html tag gap rest : Text} (noTag : ¬ "<?".toList <:+: html)
      (isTag : IsTag tag (gap ++ rest)) (more : Filler gap rest) : Outset (html ++ (tag ++ gap)) rest

/-! ## §2 Pieces that are no tokens -/

theorem line_spec (text : Text) :
    '\n' ∉ text.take (lineCommentLength text) ∧
      ¬ "?>".toList <:+: text.take (lineCommentLength text) ∧
      EndsLine (text.drop (lineCommentLength text)) := by
  refine ⟨?_, ?_, ?_⟩
  · induction text with
    | nil => simp
    | cons c cs ih =>
      rw [lineCommentLength_cons]
      split
      · simp
      · rename_i hc
        rw [List.take_succ_cons, List.mem_cons, not_or]
        exact ⟨fun h => hc (.inl h.symm), ih⟩
  · induction text with
    | nil => simp
    | cons c cs ih =>
      rw [lineCommentLength_cons]
      split
      · simp
      · rename_i hc
        rw [List.take_succ_cons, List.infix_cons_iff]
        rintro (hbegins | hlater)
        · -- a closing tag that begins here would have ended the comment
          obtain ⟨hq, hnext⟩ := List.cons_prefix_cons.mp hbegins
          have hhead : cs.head? = some '>' := by
            obtain ⟨w, hw⟩ := hnext.trans (List.take_prefix _ cs)
            rw [← hw]
            rfl
          exact hc (.inr ⟨hq.symm, hhead⟩)
        · exact ih hlater
  · obtain h | ⟨c, cs, h, rfl | ⟨rfl, hhead⟩⟩ := lineComment_end text
    · exact .inl h
    · exact .inr (.inl ⟨cs, h⟩)
    · obtain ⟨w, rfl⟩ := List.head?_eq_some_iff.mp hhead
      exact .inr (.inr ⟨w, h⟩)

theorem block_spec (h : blockCommentLength t = some n) :
    ∃ body : Text, t.take n = body ++ "*/" ∧ ¬ "*/".toList <:+: body := by
  induction t generalizing n with
  | nil => cases h
  | cons c cs ih =>
    rw [blockCommentLength_cons] at h
    split at h
    · rename_i hc
      obtain ⟨rfl, hhead⟩ := hc
      obtain ⟨w, rfl⟩ := List.head?_eq_some_iff.mp hhead
      obtain rfl := Option.some.inj h
      exact ⟨[], rfl, by simp⟩
    · rename_i hc
      obtain ⟨m, hm, rfl⟩ := Option.map_eq_some_iff.mp h
      obtain ⟨body, hbody, hno⟩ := ih hm
      refine ⟨c :: body, by rw [List.take_succ_cons, hbody]; rfl, ?_⟩
      rw [List.infix_cons_iff]
      rintro (hbegins | hlater)
      · -- an end that begins here would have been the first
        obtain ⟨hstar, hnext⟩ := List.cons_prefix_cons.mp hbegins
        have hhead : cs.head? = some '/' := by
          have hpre : "/".toList <+: cs.take m := hnext.trans ⟨_, hbody.symm⟩
          obtain ⟨w, hw⟩ := hpre.trans (List.take_prefix _ cs)
          rw [← hw]
          rfl
        exact hc ⟨hstar.symm, hhead⟩
      · exact hno hlater

/-- The tag that a text begins with after `<?`. -/
theorem isTag_of_tagLength (text : Text) :
    IsTag ((('<' :: '?' :: text)).take (tagLength text)) (('<' :: '?' :: text).drop (tagLength text)) := by
  unfold tagLength
  split
  · rename_i h
    refine .inl ?_
    rw [List.take_succ_cons, List.take_succ_cons]
    simp only [Text.sameLetters, beq_iff_eq, Text.lower, List.map_cons] at h ⊢
    rw [h]
    decide
  · rename_i hphp
    split
    · rename_i heq
      obtain ⟨w, rfl⟩ := List.head?_eq_some_iff.mp heq
      exact .inr (.inl rfl)
    · rename_i heq
      exact .inr (.inr ⟨rfl, heq, Bool.eq_false_iff.mpr hphp⟩)

/-- Inline markup goes to the end of the text when there is no tag in it, and ends with its first
tag otherwise. -/
theorem markup_spec (text : Text) :
    (¬ "<?".toList <:+: text ∧ text.drop (markupLength text) = []) ∨
      ∃ html tag : Text, text.take (markupLength text) = html ++ tag ∧
        ¬ "<?".toList <:+: html ∧ IsTag tag (text.drop (markupLength text)) := by
  induction text with
  | nil => exact .inl ⟨by simp, rfl⟩
  | cons c cs ih =>
    rw [markupLength_cons]
    split
    · rename_i hc
      obtain ⟨rfl, hhead⟩ := hc
      obtain ⟨w, rfl⟩ := List.head?_eq_some_iff.mp hhead
      exact .inr ⟨[], _, rfl, by simp, isTag_of_tagLength w⟩
    · rename_i hc
      have hbegins : ∀ x : Text, x <+: cs → ¬ "<?".toList <+: c :: x := by
        intro x hx hpre
        obtain ⟨hopen, hnext⟩ := List.cons_prefix_cons.mp hpre
        obtain ⟨w, hw⟩ := hnext.trans hx
        exact hc ⟨hopen.symm, by rw [← hw]; rfl⟩
      obtain ⟨hno, hall⟩ | ⟨html, tag, htake, hno, htag⟩ := ih
      · refine .inl ⟨?_, by rw [List.drop_succ_cons]; exact hall⟩
        rw [List.infix_cons_iff]
        exact fun h => h.elim (hbegins cs (List.prefix_refl cs)) hno
      · refine .inr ⟨c :: html, tag, by rw [List.take_succ_cons, htake]; rfl, ?_, htag⟩
        rw [List.infix_cons_iff]
        refine fun h => h.elim (hbegins html ?_) hno
        exact (List.prefix_append html tag).trans (htake ▸ List.take_prefix _ cs)

/-- The three forms of comments. -/
theorem measure_of_comment (h : (measure c cs).1 = .comment ∨ (measure c cs).1 = .doc) :
    (c = '#' ∧ cs.head? ≠ some '[' ∧ (measure c cs).2 = lineCommentLength cs) ∨
      (c = '/' ∧ cs.head? = some '/' ∧ (measure c cs).2 = lineCommentLength cs) ∨
      (c = '/' ∧ cs.head? = some '*' ∧
        ∃ k, blockCommentLength cs.tail = some k ∧ (measure c cs).2 = k + 1) := by
  rw [← List.drop_one]
  revert h
  fun_cases measure c cs <;> intro h <;> grind

/-- A comment, and what may stand around tokens after it. -/
theorem Filler.comment (h : (measure c cs).1 = .comment ∨ (measure c cs).1 = .doc)
    (hrest : cs.drop (measure c cs).2 = gap ++ rest) (more : Filler gap rest) :
    Filler (c :: cs.take (measure c cs).2 ++ gap) rest := by
  obtain ⟨rfl, hhead, hn⟩ | ⟨rfl, hhead, hn⟩ | ⟨rfl, hhead, k, hk, hn⟩ := measure_of_comment h
  · obtain ⟨hline, htag, hend⟩ := line_spec cs
    rw [hn] at hrest ⊢
    refine @Filler.line "#" _ _ _ (.inl ⟨rfl, fun hopen => hhead ?_⟩) hline htag (hrest ▸ hend) more
    obtain ⟨w, hw⟩ := List.head?_eq_some_iff.mp hopen
    rw [← List.take_append_drop (lineCommentLength cs) cs, hw]
    rfl
  · obtain ⟨body, rfl⟩ := List.head?_eq_some_iff.mp hhead
    have hbody : lineCommentLength ('/' :: body) = lineCommentLength body + 1 := by
      rw [lineCommentLength_cons, if_neg (by simp)]
    obtain ⟨hline, htag, hend⟩ := line_spec body
    rw [hn, hbody] at hrest ⊢
    rw [List.drop_succ_cons] at hrest
    exact @Filler.line "//" _ _ _ (.inr rfl) hline htag (hrest ▸ hend) more
  · obtain ⟨inner, rfl⟩ := List.head?_eq_some_iff.mp hhead
    obtain ⟨body, hbody, hno⟩ := block_spec hk
    rw [hn, List.take_succ_cons, show inner.take k = body ++ "*/" from hbody]
    have := Filler.block hno more
    simpa using this

/-- Inline markup, and what may stand around tokens after it. -/
theorem Filler.between (h : (measure c cs).1 = .markup)
    (hrest : cs.drop (measure c cs).2 = gap ++ rest) (more : Filler gap rest) :
    Filler (c :: cs.take (measure c cs).2 ++ gap) rest := by
  obtain ⟨rfl, hhead⟩ := measure_of_markup h
  obtain ⟨inner, rfl⟩ := List.head?_eq_some_iff.mp hhead
  have hn : (measure '?' ('>' :: inner)).2 = markupLength inner + 1 := by
    simp [measure, isAsciiBlank, Nat.add_comm]
  rw [hn] at hrest ⊢
  rw [List.drop_succ_cons] at hrest
  rw [List.take_succ_cons]
  obtain ⟨hno, hall⟩ | ⟨html, tag, htake, hno, htag⟩ := markup_spec inner
  · obtain ⟨rfl, rfl⟩ := List.append_eq_nil_iff.mp (hrest.symm.trans hall)
    rw [List.append_nil, List.take_of_length_le (List.drop_eq_nil_iff.mp hall)]
    exact .last hno
  · rw [htake]
    have := Filler.markup hno (hrest ▸ htag) more
    simpa using this

/-- Pieces that are no tokens may stand around tokens. -/
theorem Filler.of_pieces (h : cutCode ((M ++ R).flatMap Piece.text) = M ++ R)
    (hbroken : ∀ p ∈ M, ∀ d, p.kind ≠ .broken d) (hM : ∀ p ∈ M, ∀ kind, p.kind ≠ .token kind) :
    Filler (M.flatMap Piece.text) (R.flatMap Piece.text) := by
  induction M with
  | nil => exact .nil _
  | cons p M ih =>
    cases hcode : (p :: M ++ R).flatMap Piece.text with
    | nil =>
      rw [hcode, cutCode] at h
      cases h
    | cons c cs =>
      rw [hcode, cutCode_cons] at h
      obtain ⟨hp, hlater⟩ := List.cons.inj h
      replace hlater : cutCode (cs.drop (measure c cs).2) = M ++ R := hlater
      have hdrop : cs.drop (measure c cs).2 = (M ++ R).flatMap Piece.text := by
        rw [← hlater, cutCode_flatten]
      have hmore := ih (hdrop ▸ hlater) (fun q hq => hbroken q (List.mem_cons_of_mem p hq))
        fun q hq => hM q (List.mem_cons_of_mem p hq)
      rw [List.flatMap_append] at hdrop
      have hbroken := hbroken p List.mem_cons_self
      have hM := hM p List.mem_cons_self
      rw [← hp] at hbroken hM
      rw [List.flatMap_cons, ← hp]
      simp only at hbroken hM ⊢
      cases hk : (measure c cs).1 with
      | blank =>
        obtain ⟨hstop, hzero⟩ := measure_of_blank hk
        rw [hzero, List.take_zero]
        refine .blank ?_ hmore
        by_contra hc
        rw [stopKind, if_neg hc] at hstop
        revert hstop
        repeat' split
        all_goals simp
      | comment => exact .comment (.inl hk) hdrop hmore
      | doc => exact .comment (.inr hk) hdrop hmore
      | markup => exact .between hk hdrop hmore
      | token kind => exact absurd hk (hM kind)
      | broken d => exact absurd hk (hbroken d)

/-- Pieces that are no tokens may stand before the first token of a source. -/
theorem Outset.of_pieces (h : cut source = M ++ R) (hbroken : ∀ p ∈ M, ∀ d, p.kind ≠ .broken d)
    (hM : ∀ p ∈ M, ∀ kind, p.kind ≠ .token kind) (hR : ∀ p ∈ R.head?, p.kind ≠ .markup) :
    Outset (M.flatMap Piece.text) (R.flatMap Piece.text) := by
  have hsource := source_eq h
  rw [List.flatMap_append] at hsource
  unfold cut at h
  split at h
  · rename_i hcontains
    obtain ⟨hno, -⟩ | ⟨html, tag, htake, hno, htag⟩ := markup_spec source
    · exact absurd (contains_iff.mp hcontains) hno
    · cases M with
      | nil =>
        obtain rfl := h.symm
        exact absurd rfl (hR _ rfl)
      | cons p M =>
        obtain ⟨rfl, hcode⟩ := List.cons.inj h
        replace hcode : cutCode (source.drop (markupLength source)) = M ++ R := hcode
        have hdrop : source.drop (markupLength source) = (M ++ R).flatMap Piece.text := by
          rw [← hcode, cutCode_flatten]
        rw [hdrop] at hcode htag
        have hmore := Filler.of_pieces hcode (fun q hq => hbroken q (List.mem_cons_of_mem _ hq))
          fun q hq => hM q (List.mem_cons_of_mem _ hq)
        rw [List.flatMap_append] at htag
        have := Outset.markup hno htag hmore
        rwa [List.flatMap_cons, htake, List.append_assoc]
  · rename_i hcontains
    refine .code (fun hin => hcontains (contains_iff.mpr (hsource ▸ hin))) ?_
    refine .of_pieces ?_ hbroken hM
    rw [List.flatMap_append, ← hsource, h]

/-! ## §3 The text before a token or after the last one -/

namespace TokenSequence

/-- Where the text before the token `i` begins: at the end of the token before it. -/
def gapStart (l : TokenSequence) (i : Nat) : Nat := if i = 0 then 0 else l.stopAt (i - 1)

/-- Where the text before the token `i` ends: at that token, or at the end of the source when there
are only `i` tokens. -/
def gapStop (l : TokenSequence) (source : Text) (i : Nat) : Nat :=
  (l.tokens[i]?.map (·.span.start)).getD (Text.width source)

/-- The text between the token `i` and the one before it. -/
def gapAt (l : TokenSequence) (source : Text) (i : Nat) : Text :=
  Text.slice (l.gapStart i) (l.gapStop source i) source

end TokenSequence

/-- The pieces before the token `i`, or all pieces when there are only `i` tokens. -/
theorem exists_before (hl : tokenize source = .ok l) (hi : i ≤ l.tokens.size) :
    ∃ B R, cut source = B ++ R ∧ countIn B = i ∧ Reading.extent B = l.gapStop source i ∧
      ∀ p ∈ R.head?, p.kind ≠ .markup := by
  obtain rfl | hlt := Nat.eq_or_lt_of_le hi
  · refine ⟨cut source, [], by simp, ?_, ?_, by simp⟩
    · have hlen := congrArg List.length (bare_of_tokenize hl).1
      rw [length_tokensIn] at hlen
      simpa [countIn] using hlen.symm
    · rw [gapStop, Array.getElem?_eq_none (Nat.le_refl _), Reading.extent, cut_flatten]
      rfl
  · have ht := Array.getElem?_eq_getElem hlt
    obtain ⟨A, p, R, hcut, hp, -, hcount, hstart, -⟩ := exists_piece hl ht
    refine ⟨A, p :: R, hcut, hcount, by rw [hstart, gapStop, ht]; rfl, fun q hq => ?_⟩
    obtain rfl := Option.some.inj hq
    rw [hp]
    exact PieceKind.noConfusion

/-- The pieces between the token `i` and the one before it. -/
theorem exists_between (hl : tokenize source = .ok l) (hi : i ≤ l.tokens.size) :
    ∃ A M R, cut source = A ++ (M ++ R) ∧ countIn M = 0 ∧ (A = [] ↔ i = 0) ∧
      Reading.extent A = l.gapStart i ∧ Reading.extent (A ++ M) = l.gapStop source i ∧
      ∀ p ∈ R.head?, p.kind ≠ .markup := by
  obtain ⟨B, R, hcut, hcount, hstop, hR⟩ := exists_before hl hi
  cases i with
  | zero => exact ⟨[], B, R, hcut, hcount, by simp, rfl, hstop, hR⟩
  | succ i =>
    have ht := Array.getElem?_eq_getElem hi
    obtain ⟨A, p, R', hcut', hp, -, hA, -, hend⟩ := exists_piece hl ht
    obtain ⟨M, rfl⟩ : A ++ [p] <+: B :=
      prefix_of_count (C := cut source) ⟨R', by rw [hcut']; simp⟩ ⟨R, hcut.symm⟩ (by omega)
    rw [countIn_append, countIn_append, countIn_singleton hp] at hcount
    refine ⟨A ++ [p], M, R, by rw [hcut, List.append_assoc], by omega, by simp, ?_, hstop, hR⟩
    rw [hend, gapStart, if_neg (Nat.succ_ne_zero i), Nat.add_sub_cancel, stopAt_eq ht]

/-- What stands before a token and after the last one holds no code. -/
theorem filler_gap (hl : tokenize source = .ok l) (hi : i ≤ l.tokens.size) :
    (i = 0 → Outset (l.gapAt source i) (Text.after (l.gapStop source i) source)) ∧
      (i ≠ 0 → Filler (l.gapAt source i) (Text.after (l.gapStop source i) source)) := by
  obtain ⟨A, M, R, hcut, hcount, hA, hstart, hstop, hR⟩ := exists_between hl hi
  have hsource : source = A.flatMap Piece.text ++ (M.flatMap Piece.text ++ R.flatMap Piece.text) := by
    rw [source_eq hcut, List.flatMap_append, List.flatMap_append]
  have hgap : l.gapAt source i = M.flatMap Piece.text := by
    rw [gapAt, ← hstart, ← hstop, extent_append, hsource]
    exact Text.slice_middle _ _ _
  have hafter : Text.after (l.gapStop source i) source = R.flatMap Piece.text := by
    rw [← hstop, extent_append, hsource, ← List.append_assoc, Reading.extent, Reading.extent,
      ← Text.width_append]
    exact Text.after_width _ _
  have hbroken : ∀ p ∈ M, ∀ d, p.kind ≠ .broken d :=
    fun p hp d => ne_broken_of_tokenize hl (by rw [hcut]; simp [hp]) d
  have htoken : ∀ p ∈ M, ∀ kind, p.kind ≠ .token kind := by
    intro p hp kind hkind
    obtain ⟨X, Y, rfl⟩ := List.append_of_mem hp
    rw [← List.singleton_append, countIn_append, countIn_append, countIn_singleton hkind] at hcount
    omega
  rw [hgap, hafter]
  constructor
  · intro hzero
    rw [hA.mpr hzero] at hcut
    exact .of_pieces hcut hbroken htoken hR
  · intro hne
    exact .of_pieces (cut_suffix hcut fun hnil => hne (hA.mp hnil)).symm hbroken htoken

/-! ## §4 Spans of pieces -/

/-- The spans of the pieces of some kind, which stand from an offset on. -/
def spansIn (f : Piece → Bool) (offset : Nat) : List Piece → List Span
  | [] => []
  | p :: ps =>
    (if f p then [⟨offset, offset + Text.width p.text⟩] else [])
      ++ spansIn f (offset + Text.width p.text) ps

section Spans

variable {f : Piece → Bool}

theorem exists_of_mem_spansIn {offset : Nat} {ps : List Piece} (h : d ∈ spansIn f offset ps) :
    ∃ A p R, ps = A ++ p :: R ∧ f p = true ∧
      d = ⟨offset + Reading.extent A, offset + Reading.extent (A ++ [p])⟩ := by
  induction ps generalizing offset with
  | nil => cases h
  | cons p ps ih =>
    obtain h | h := List.mem_append.mp h
    · split at h
      · rename_i hp
        obtain rfl := List.mem_singleton.mp h
        exact ⟨[], p, ps, rfl, hp, by simp [Reading.extent]⟩
      · cases h
    · obtain ⟨A, q, R, rfl, hq, rfl⟩ := ih h
      refine ⟨p :: A, q, R, rfl, hq, ?_⟩
      rw [List.cons_append, extent_cons, extent_cons, Nat.add_assoc, Nat.add_assoc]

theorem spansIn_order (f : Piece → Bool) (offset : Nat) (ps : List Piece) :
    (spansIn f offset ps).Pairwise fun a b => a.stop ≤ b.start := by
  induction ps generalizing offset with
  | nil => exact .nil
  | cons p ps ih =>
    refine List.pairwise_append.mpr ⟨?_, ih _, ?_⟩
    · split
      · exact List.pairwise_singleton _ _
      · exact .nil
    · intro a ha b hb
      obtain ⟨A, q, R, -, -, rfl⟩ := exists_of_mem_spansIn hb
      split at ha
      · obtain rfl := List.mem_singleton.mp ha
        exact Nat.le_add_right _ _
      · cases ha

/-- Of two pieces of a source one stands before the other. -/
theorem before_or_after (h : A ++ p :: R = P ++ q :: Q) (hne : p ≠ q) :
    A ++ [p] <+: P ∨ P ++ [q] <+: A := by
  have hp : A ++ [p] <+: A ++ p :: R := ⟨R, by simp⟩
  have hq : P ++ [q] <+: A ++ p :: R := ⟨Q, by rw [h]; simp⟩
  obtain hle | hle := Nat.le_total (A ++ [p]).length (P ++ [q]).length
  · obtain heq | hpre := List.prefix_concat_iff.mp (List.prefix_of_prefix_length_le hp hq hle)
    · exact absurd (List.append_inj' heq rfl).2 (by simpa using hne)
    · exact .inl hpre
  · obtain heq | hpre := List.prefix_concat_iff.mp (List.prefix_of_prefix_length_le hq hp hle)
    · exact absurd (List.append_inj' heq rfl).2 (by simpa using Ne.symm hne)
    · exact .inr hpre

theorem lt_of_mem_spansIn (hd : d ∈ spansIn f 0 (cut source))
    (hf : ∀ p, f p = true → p.kind ≠ .markup) : d.start < d.stop := by
  obtain ⟨A, p, R, hcut, hp, rfl⟩ := exists_of_mem_spansIn hd
  have hne := text_ne_nil_of_cons (cut_suffix_of_ne_markup hcut (hf p hp))
  obtain ⟨c, cs, htext⟩ := List.exists_cons_of_ne_nil hne
  have := c.utf8Size_pos
  rw [extent_append A, Reading.extent, Reading.extent, List.flatMap_singleton, htext, Text.width_cons]
  simp only
  omega

/-- The spans of pieces that are no tokens keep clear of the tokens. -/
theorem apart_of_mem_spansIn (hl : tokenize source = .ok l) (hd : d ∈ spansIn f 0 (cut source))
    (hf : ∀ p kind, f p = true → p.kind ≠ .token kind) {t : Token} (ht : l.tokens[i]? = some t) :
    d.stop ≤ t.span.start ∨ t.span.stop ≤ d.start := by
  obtain ⟨A, p, R, hcut, hp, rfl⟩ := exists_of_mem_spansIn hd
  obtain ⟨P, q, Q, hcut', hq, -, -, hstart, hstop⟩ := exists_piece hl ht
  have hne : p ≠ q := by
    rintro rfl
    exact hf p _ hp hq
  obtain ⟨S, rfl⟩ | ⟨S, rfl⟩ := before_or_after (hcut.symm.trans hcut') hne
  · left
    rw [← hstart, extent_append (A ++ [p])]
    simp only
    omega
  · right
    rw [← hstop, extent_append (P ++ [q])]
    simp only
    omega

end Spans

/-! ## §5 Documentation comments -/

/-- The documentation comments are the pieces of their kind. -/
theorem docsIn_eq_spansIn (offset : Nat) (ps : List Piece) :
    docsIn offset ps = spansIn (·.kind = .doc) offset ps := by
  induction ps generalizing offset with
  | nil => rfl
  | cons p ps ih => simp only [docsIn, spansIn, ih, decide_eq_true_eq]

theorem exists_of_mem_docsIn {offset : Nat} {ps : List Piece} (h : d ∈ docsIn offset ps) :
    ∃ A p R, ps = A ++ p :: R ∧ p.kind = .doc ∧
      d = ⟨offset + Reading.extent A, offset + Reading.extent (A ++ [p])⟩ := by
  rw [docsIn_eq_spansIn] at h
  simpa using exists_of_mem_spansIn h

theorem docsIn_order (offset : Nat) (ps : List Piece) :
    (docsIn offset ps).Pairwise fun a b => a.stop ≤ b.start := by
  rw [docsIn_eq_spansIn]
  exact spansIn_order _ offset ps

theorem docsIn_of_none {ps : List Piece} (offset : Nat) (h : ∀ p ∈ ps, p.kind ≠ .doc) :
    docsIn offset ps = [] := by
  induction ps generalizing offset with
  | nil => rfl
  | cons p ps ih =>
    rw [docsIn, if_neg (h p (by simp)), ih _ fun q hq => h q (List.mem_cons_of_mem _ hq)]
    rfl

theorem bounds_of_mem_docsIn {offset : Nat} {ps : List Piece} (h : d ∈ docsIn offset ps) :
    offset ≤ d.start ∧ d.start ≤ d.stop ∧ d.stop ≤ offset + Reading.extent ps := by
  obtain ⟨A, p, R, rfl, -, rfl⟩ := exists_of_mem_docsIn h
  have hsplit : A ++ p :: R = (A ++ [p]) ++ R := by simp
  rw [hsplit, extent_append (A ++ [p]), extent_append A]
  exact ⟨Nat.le_add_right _ _, by dsimp only; omega, by dsimp only; omega⟩

/-- A documentation comment after a piece that has a text ends after that piece begins. -/
theorem lt_stop_of_mem_docsIn {offset : Nat} {A R : List Piece} {q : Piece} (hA : ∀ p ∈ A, p.kind ≠ .doc)
    (hq : q.kind ≠ .doc) (hne : q.text ≠ []) (h : d ∈ docsIn offset (A ++ q :: R)) :
    offset + Reading.extent A < d.stop := by
  have hnone : docsIn offset (A ++ [q]) = [] := docsIn_of_none _ fun p hp => by
    obtain hp | hp := List.mem_append.mp hp
    · exact hA p hp
    · obtain rfl := List.mem_singleton.mp hp
      exact hq
  rw [show A ++ q :: R = (A ++ [q]) ++ R by simp, docsIn_append, hnone, List.nil_append] at h
  have hbounds := bounds_of_mem_docsIn h
  obtain ⟨c, cs, hqtext⟩ := List.exists_cons_of_ne_nil hne
  have := c.utf8Size_pos
  have hextent : Reading.extent (A ++ [q]) = Reading.extent A + (c.utf8Size + Text.width cs) := by
    rw [extent_append, extent_cons, hqtext, Text.width_cons]
    rfl
  omega

theorem doc_lt (hl : tokenize source = .ok l) (hd : d ∈ l.docs) : d.start < d.stop := by
  rw [(bare_of_tokenize hl).2, docsIn_eq_spansIn] at hd
  exact lt_of_mem_spansIn hd fun p hp => by simp [of_decide_eq_true hp]

/-- A documentation comment keeps clear of the tokens. -/
theorem doc_apart (hl : tokenize source = .ok l) (hd : d ∈ l.docs) {t : Token}
    (ht : l.tokens[i]? = some t) : d.stop ≤ t.span.start ∨ t.span.stop ≤ d.start := by
  rw [(bare_of_tokenize hl).2, docsIn_eq_spansIn] at hd
  exact apart_of_mem_spansIn hl hd (fun p kind hp => by simp [of_decide_eq_true hp]) ht

/-! ## §6 Brackets -/

/-- The brackets, as they are written: each that opens with the one that closes it. -/
def bracketPairs : List (Text × Text) := [("(", ")"), ("\x7b", "\x7d"), ("[", "]"), ("#[", "]")]

/-- The texts of brackets. -/
def brackets : List Text := ["(", ")", "\x7b", "\x7d", "[", "]", "#["]

namespace TokenKind

/-- True for the kinds of brackets. -/
def isBracket (kind : TokenKind) : Bool := kind.opens || kind.closes.isSome

/-- How a bracket is written. -/
def spelling : TokenKind → Text
  | openParen => "("
  | closeParen => ")"
  | openBrace => "\x7b"
  | closeBrace => "\x7d"
  | openBracket => "["
  | closeBracket => "]"
  | attrOpen => "#["
  | _ => []

end TokenKind

/-- A character that is a bracket by itself. -/
theorem spelling_of_stopKind {kind : TokenKind} (h : stopKind c = some (.token kind))
    (hkind : kind.isBracket = true) : kind.spelling = [c] := by
  revert h hkind
  fun_cases stopKind c <;> intro h <;> cases h <;> intro hkind <;> subst_vars <;>
    first | rfl | exact absurd hkind (by decide)

theorem text_of_isBracket (hl : tokenize source = .ok l) {t : Token} (ht : l.tokens[i]? = some t)
    (h : t.kind.isBracket = true) : t.text = t.kind.spelling := by
  obtain ⟨c, cs, hkind, htext⟩ := exists_measure hl ht
  have hseals : t.kind.seals = true := by
    revert h
    cases t.kind <;> decide
  rw [htext]
  obtain ⟨hstop, hzero⟩ | ⟨rfl, hhead, hm⟩ := measure_of_sealing hkind hseals
  · rw [hzero, List.take_zero, spelling_of_stopKind hstop h]
  · obtain ⟨w, rfl⟩ := List.head?_eq_some_iff.mp hhead
    rw [hm] at hkind ⊢
    rw [← PieceKind.token.inj hkind]
    rfl

theorem isBracket_of_text (hl : tokenize source = .ok l) {t : Token} (ht : l.tokens[i]? = some t)
    (h : t.text ∈ brackets) : t.kind.isBracket = true := by
  obtain ⟨c, cs, hkind, htext⟩ := exists_measure hl ht
  have hbrackets : brackets = [['('], [')'], ['{'], ['}'], ['['], [']'], ['#', '[']] := rfl
  have hname : ∀ c ∈ ['(', ')', '{', '}', '[', ']'], isNameStart c = false := by
    simp only [List.mem_cons, List.not_mem_nil, or_false]
    rintro c (rfl | rfl | rfl | rfl | rfl | rfl) <;> rfl
  rw [htext, hbrackets] at h
  simp only [List.mem_cons, List.cons.injEq, List.not_mem_nil, or_false] at h
  obtain ⟨rfl, -⟩ | ⟨rfl, -⟩ | ⟨rfl, -⟩ | ⟨rfl, -⟩ | ⟨rfl, -⟩ | ⟨rfl, -⟩ | ⟨rfl, hrest⟩ := h
  case inr.inr.inr.inr.inr.inr =>
    have hhead : cs.head? = some '[' := by
      obtain ⟨w, hw⟩ := List.take_prefix (measure '#' cs).2 cs
      rw [← hw, hrest]
      rfl
    simp [measure, isAsciiBlank, hhead] at hkind
    rw [← hkind]
    rfl
  all_goals
    simp [measure, isAsciiBlank, hname] at hkind
    rw [← hkind]
    rfl

theorem kind_iff_text (hl : tokenize source = .ok l) {t : Token} (ht : l.tokens[i]? = some t) :
    t.kind.isBracket = true ↔ t.text ∈ brackets := by
  refine ⟨fun h => ?_, isBracket_of_text hl ht⟩
  rw [text_of_isBracket hl ht h]
  revert h
  cases t.kind <;> decide

/-- Partners are written as brackets of one form. -/
theorem mem_bracketPairs (hl : tokenize source = .ok l) {t u : Token} (ht : l.tokens[i]? = some t)
    (hu : l.tokens[j]? = some u) (h : t.kind.Pairs u.kind) : (t.text, u.text) ∈ bracketPairs := by
  obtain ⟨hopens, -, openers, hcloses, hmem⟩ := h
  rw [text_of_isBracket hl ht (by simp [TokenKind.isBracket, hopens]),
    text_of_isBracket hl hu (by simp [TokenKind.isBracket, hcloses])]
  revert hcloses hmem
  cases u.kind <;> intro hcloses hmem <;> cases hcloses <;> revert hmem <;>
    cases t.kind <;> decide

/-! ## §7 The tokens of a source -/

/-- The tokens `l` divide the source. -/
structure Partition (source : Text) (l : TokenSequence) : Prop where
  /-- No token is empty. -/
  token_lt : ∀ (i : Nat) (t : Token), l.tokens[i]? = some t → t.span.start < t.span.stop
  /-- Every token stands in the source and begins and ends between two characters. -/
  token_fits : ∀ (i : Nat) (t : Token), l.tokens[i]? = some t →
    t.span.Fits source ∧ t.span.slice source = t.text
  /-- The tokens stand one behind the other. -/
  order : ∀ (i j : Nat) (t u : Token), l.tokens[i]? = some t → l.tokens[j]? = some u → i < j →
    t.span.stop ≤ u.span.start
  /-- The documentation comments stand in the source. -/
  doc_fits : ∀ d ∈ l.docs, d.Fits source ∧ d.start < d.stop
  /-- The documentation comments stand one behind the other. -/
  doc_order : l.docs.Pairwise fun a b => a.stop ≤ b.start
  /-- No documentation comment shares a place with a token. -/
  doc_apart : ∀ d ∈ l.docs, ∀ (i : Nat) (t : Token), l.tokens[i]? = some t →
    d.stop ≤ t.span.start ∨ t.span.stop ≤ d.start
  /-- The source before its first token holds no code. -/
  outset : Outset (l.gapAt source 0) (Text.after (l.gapStop source 0) source)
  /-- The source between two tokens and after the last one holds no code. -/
  between : ∀ i, 0 < i → i ≤ l.tokens.size →
    Filler (l.gapAt source i) (Text.after (l.gapStop source i) source)
  /-- The brackets are the tokens that are written as such. -/
  bracket : ∀ (i : Nat) (t : Token), l.tokens[i]? = some t →
    (t.kind.isBracket = true ↔ t.text ∈ brackets)
  /-- The brackets have a partner, and nothing else does. -/
  partnered : ∀ (i : Nat) (t : Token), l.tokens[i]? = some t →
    (t.partner.isSome = true ↔ t.kind.isBracket = true)
  /-- A bracket is the partner of its partner, and the two are written as they should. -/
  pairs : ∀ (i j : Nat) (t : Token), l.tokens[i]? = some t → t.partner = some j →
    ∃ u : Token, l.tokens[j]? = some u ∧ u.partner = some i ∧
      ((i < j ∧ (t.text, u.text) ∈ bracketPairs) ∨ (j < i ∧ (u.text, t.text) ∈ bracketPairs))
  /-- A bracket between two partners has its partner between them. -/
  nested : ∀ (i j m : Nat) (t u : Token), l.tokens[i]? = some t → t.partner = some j → i < m →
    m < j → l.tokens[m]? = some u → u.kind.isBracket = true →
    ∃ q, u.partner = some q ∧ i < q ∧ q < j

/-- **The tokens of a source divide it**: they stand one behind the other with no code between them,
and their brackets pair and nest. -/
theorem partition_of_tokenize (hl : tokenize source = .ok l) : Partition source l := by
  have hn := nested_of_tokenize hl
  have hpartnered : ∀ (i : Nat) (t : Token), l.tokens[i]? = some t → t.kind.isBracket = true →
      ∃ j, t.partner = some j := by
    intro i t ht hbracket
    refine hn.partnered i t ht ?_
    rwa [TokenKind.isBracket, Bool.or_eq_true, Option.isSome_iff_ne_none] at hbracket
  constructor
  case token_lt => exact fun i t ht => token_lt hl ht
  case token_fits =>
    intro i t ht
    obtain ⟨x, y, rfl, hstart, hstop⟩ := exists_token_parts hl ht
    refine ⟨token_fits hl ht, ?_⟩
    rw [Span.slice, hstart, hstop]
    exact Text.slice_middle x t.text y
  case order => exact fun i j t u ht hu hij => stop_le_start hl ht hu hij
  case doc_fits => exact fun d hd => ⟨fits_of_mem_docs hl hd, doc_lt hl hd⟩
  case doc_order =>
    rw [(bare_of_tokenize hl).2]
    exact docsIn_order 0 _
  case doc_apart => exact fun d hd i t ht => doc_apart hl hd ht
  case outset => exact (filler_gap hl (Nat.zero_le _)).1 rfl
  case between => exact fun i hpos hi => (filler_gap hl hi).2 (Nat.ne_of_gt hpos)
  case bracket => exact fun i t ht => kind_iff_text hl ht
  case partnered =>
    intro i t ht
    constructor
    · intro hsome
      obtain ⟨j, hj⟩ := Option.isSome_iff_exists.mp hsome
      obtain ⟨u, -, -, ⟨-, hopens, -⟩ | ⟨-, -, -, openers, hcloses, -⟩⟩ := hn.pair i t j ht hj
      · simp [TokenKind.isBracket, hopens]
      · simp [TokenKind.isBracket, hcloses]
    · exact fun hbracket => Option.isSome_iff_exists.mpr (hpartnered i t ht hbracket)
  case pairs =>
    intro i j t ht hj
    obtain ⟨u, hu, hback, ⟨hij, hpairs⟩ | ⟨hji, hpairs⟩⟩ := hn.pair i t j ht hj
    · exact ⟨u, hu, hback, .inl ⟨hij, mem_bracketPairs hl ht hu hpairs⟩⟩
    · exact ⟨u, hu, hback, .inr ⟨hji, mem_bracketPairs hl hu ht hpairs⟩⟩
  case nested =>
    intro i j m t u ht hj him hmj hu hbracket
    obtain ⟨q, hq⟩ := hpartnered m u hu hbracket
    exact ⟨q, hq, hn.inside i t j ht hj (by omega) m u q him hmj hu hq⟩

/-- A page with markup, comments and brackets of every form. -/
def samplePage : Text := "<p><?php #[A]\n/** f */ f(['x'] # y\n); {} ?>\n"

theorem partition_of_tokenize_page : ∃ l, tokenize samplePage = .ok l ∧ l.tokens.size = 12 ∧
    l.docs.length = 1 ∧ Partition samplePage l := by
  have h : (tokenize samplePage).toOption.any
      (fun l => l.tokens.size = 12 ∧ l.docs.length = 1) = true := by decide +kernel
  cases hl : tokenize samplePage with
  | error e =>
    rw [hl] at h
    cases h
  | ok l =>
    rw [hl] at h
    obtain ⟨htokens, hdocs⟩ := of_decide_eq_true h
    exact ⟨l, rfl, htokens, hdocs, partition_of_tokenize hl⟩

end Crosslink.Source
