import Crosslink.Proofs.Checked.Access

/-!
# Cutting pieces byte by byte

`Checked.pieceAt` finds the piece that begins at a byte offset of a source text. It decides by the
byte there and those after it, jumps over what it has read by counting bytes, and asks for parts of
the text at the offsets it has come to. It has no result when one of these parts does not exist.

It always has one, and it is the piece that `measure` finds on characters: every offset the bytes
lead to is a place between two characters.

* §1 The first occurrence of a text, and the ends that are found by searching for one.
* §2 Comments and inline markup.
* §3 Labelled texts.
* §4 One piece.

## Main statements

* `Checked.markupStop_eq`, `Checked.commentAt_eq`, `Checked.labelledStop_eq`: no part that is asked
  for is refused, and the end is that of `measure`.
* `Checked.pieceAt_eq`: so it is for all pieces.
-/

namespace Crosslink

namespace Text

variable {sep l r t : Text}

/-! ## 1. Ends found by searching -/

theorem splitFirst_pair_cons (a b c : Char) (cs : Text) :
    splitFirst [a, b] (c :: cs) =
      if c = a ∧ cs.head? = some b then some ([], cs.tail)
      else (splitFirst [a, b] cs).map fun (l, r) => (c :: l, r) := by
  cases cs with
  | nil => simp [splitFirst, List.isPrefixOf]
  | cons d cs =>
    rw [splitFirst]
    by_cases hc : c = a
    · subst hc
      by_cases hd : d = b
      · simp [List.isPrefixOf, hd]
      · have hd' : ¬ b = d := fun h => hd h.symm
        simp [List.isPrefixOf, hd, hd']
    · have hc' : ¬ a = c := fun h => hc h.symm
      simp [List.isPrefixOf, hc, hc']

theorem splitFirst_singleton_cons (a c : Char) (cs : Text) :
    splitFirst [a] (c :: cs) =
      if c = a then some ([], cs) else (splitFirst [a] cs).map fun (l, r) => (c :: l, r) := by
  rw [splitFirst]
  by_cases hc : c = a
  · simp [List.isPrefixOf, hc]
  · have hc' : ¬ a = c := fun h => hc h.symm
    simp [List.isPrefixOf, hc, hc']

theorem width_ascii (h : ∀ c ∈ t, c.toNat < 0x80) : width t = t.length := by
  induction t with
  | nil => rfl
  | cons c cs ih =>
    rw [width_cons, utf8Size_ascii (h c (by simp)), ih fun d hd => h d (by simp [hd]),
      List.length_cons, Nat.add_comm]

theorem length_of_sameLetters {a b : Text} (h : sameLetters a b = true) : a.length = b.length := by
  have hlower : lower a = lower b := by simpa [sameLetters] using h
  simpa [lower] using congrArg List.length hlower

theorem ascii_of_sameLetters {a word : Text} (hword : ∀ c ∈ lower word, c.toNat < 0x80)
    (h : sameLetters a word = true) : ∀ c ∈ a, c.toNat < 0x80 := by
  intro c hc
  have hlower : lower a = lower word := by simpa [sameLetters] using h
  have hmem : c.toLower ∈ lower word := by
    rw [← hlower]
    exact List.mem_map_of_mem hc
  have hsmall := hword _ hmem
  rcases Source.toNat_of_toLower (c := c) rfl with heq | heq
  · rwa [heq]
  · omega

/-- An ASCII word that begins a text is found there by its bytes as by its characters. -/
theorem sameLetters_before {word : Text} (hword : ∀ c ∈ lower word, c.toNat < 0x80) (t : Text) :
    (isBoundary word.length t && sameLetters (before word.length t) word) =
      sameLetters (t.take word.length) word := by
  rw [Bool.eq_iff_iff, Bool.and_eq_true]
  constructor
  · rintro ⟨-, h⟩
    have htake : t.take word.length = before word.length t := by
      have hbegins : before word.length t <+: t := ⟨_, before_append_after word.length t⟩
      have heq := List.prefix_iff_eq_take.mp hbegins
      rw [length_of_sameLetters h] at heq
      exact heq.symm
    rwa [htake]
  · intro h
    have hwidth : width (t.take word.length) = word.length := by
      rw [width_ascii (ascii_of_sameLetters hword h), length_of_sameLetters h]
    have hbefore := before_width (t.take word.length) (t.drop word.length)
    have hboundary := isBoundary_width (t.take word.length) (t.drop word.length)
    rw [List.take_append_drop, hwidth] at hbefore hboundary
    exact ⟨hboundary, hbefore ▸ h⟩

end Text

namespace Source

open Text

variable {t : Text}

theorem markupLength_eq (t : Text) :
    markupLength t = match splitFirst ['<', '?'] t with
      | some (l, r) => l.length + tagLength r
      | none => t.length := by
  induction t with
  | nil => simp [markupLength, splitFirst]
  | cons c cs ih =>
    rw [markupLength_cons, splitFirst_pair_cons]
    split
    · simp
    · rw [ih]
      cases splitFirst ['<', '?'] cs with
      | none => simp
      | some x =>
        change x.1.length + tagLength x.2 + 1 = x.1.length + 1 + tagLength x.2
        omega

theorem blockCommentLength_eq (t : Text) :
    blockCommentLength t = (splitFirst ['*', '/'] t).map fun x => x.1.length + 2 := by
  induction t with
  | nil => simp [blockCommentLength, splitFirst]
  | cons c cs ih =>
    rw [blockCommentLength_cons, splitFirst_pair_cons]
    split
    · simp
    · rw [ih]
      cases splitFirst ['*', '/'] cs with
      | none => simp
      | some x => simp [Nat.add_right_comm]

variable {label : Text}

theorem closingLength_false (label t : Text) :
    closingLength label false t = match splitFirst ['\n'] t with
      | some (l, r) => (closingLength label true r).map (l.length + 1 + ·)
      | none => none := by
  induction t with
  | nil => simp [closingLength, splitFirst]
  | cons c cs ih =>
    rw [closingLength_cons, splitFirst_singleton_cons, Bool.false_and, if_neg Bool.false_ne_true]
    by_cases hc : c = '\n'
    · simp [hc, Nat.add_comm]
    · simp only [hc, decide_false, ih, if_false]
      cases splitFirst ['\n'] cs with
      | none => simp
      | some x =>
        simp only [Option.map_some, Option.map_map, List.length_cons]
        congr 1
        funext n
        simp only [Function.comp_apply]
        omega

theorem closingLength_true (hlabel : label ≠ []) (t : Text) :
    closingLength label true t =
      if closesHere label t then some ((t.takeWhile isIndent).length + label.length)
      else closingLength label false t := by
  cases t with
  | nil =>
    have hnot : closesHere label [] = false := by
      cases label with
      | nil => exact absurd rfl hlabel
      | cons c cs => rfl
    simp [closingLength, hnot]
  | cons c cs =>
    rw [closingLength_cons, closingLength_cons, Bool.true_and, Bool.false_and,
      if_neg Bool.false_ne_true]

/-! ## 2. Comments and inline markup -/

namespace Checked

/-- Where inline markup ends that has been read up to an offset, its closing tag included. -/
def markupStop (source : Text) (pos : Nat) : Option Nat := do
  let rest ← after? pos source
  match splitFirst ['<', '?'] rest with
  | none => some (width source)
  | some (found, _) =>
    let tag := pos + width found
    let tail ← after? tag source
    if isBoundary 5 tail && sameLetters (before 5 tail) "<?php" then some (tag + 5)
    else if ("<?=" : Text).isPrefixOf tail then some (tag + 3)
    else some (tag + 2)

/-- The block comment that begins at an offset. -/
def commentAt (source : Text) (start : Nat) : Option (PieceKind × Nat) := do
  let body ← after? (start + 2) source
  match splitFirst ['*', '/'] body with
  | none => some (.broken .unterminatedComment, width source)
  | some (inner, _) =>
    let stop := start + 2 + width inner + 2
    let whole ← after? start source
    if ("/**" : Text).isPrefixOf whole && 4 < stop - start then some (.doc, stop)
    else some (.comment, stop)

/-- A tag is told from its first five bytes as from its first five characters. -/
theorem isPhpTag_eq (r : Text) :
    (isBoundary 5 ('<' :: '?' :: r) && sameLetters (before 5 ('<' :: '?' :: r)) "<?php") =
      sameLetters (r.take 3) "php" := by
  have hword : ∀ c ∈ lower ("<?php" : Text), c.toNat < 0x80 := by simp [lower]
  have h := sameLetters_before hword ('<' :: '?' :: r)
  refine h.trans ?_
  simp [sameLetters, lower]

/-- The tag that begins a text takes as many bytes as characters. -/
theorem width_take_tagLength (r : Text) :
    width (('<' :: '?' :: r).take (tagLength r)) = tagLength r := by
  have htwo : ∀ x : Text, width ('<' :: '?' :: x) = 2 + width x := by
    intro x
    simp [utf8Size_ascii (c := '<') (by decide), utf8Size_ascii (c := '?') (by decide),
      ← Nat.add_assoc]
  unfold tagLength
  split
  · rename_i hphp
    rw [List.take_succ_cons, List.take_succ_cons, htwo,
      width_ascii (ascii_of_sameLetters (by simp [lower]) hphp), length_of_sameLetters hphp]
    rfl
  · split
    · rename_i heq
      obtain ⟨r', rfl⟩ := List.head?_eq_some_iff.mp heq
      rfl
    · rfl

theorem markupStop_eq (pre t : Text) :
    markupStop (pre ++ t) (width pre) = some (width pre + width (t.take (markupLength t))) := by
  rw [markupStop, after?_width, markupLength_eq]
  simp only [Option.bind_eq_bind, Option.bind_some]
  cases hsplit : splitFirst ['<', '?'] t with
  | none => simp
  | some x =>
    obtain ⟨l, r⟩ := x
    obtain rfl := eq_append_of_splitFirst hsplit
    have htail : after? (width pre + width l) (pre ++ (l ++ (['<', '?'] ++ r))) =
        some ('<' :: '?' :: r) := after?_append pre l _
    have hequals : ("<?=" : Text).isPrefixOf ('<' :: '?' :: r) = decide (r.head? = some '=') := by
      cases r with
      | nil => rfl
      | cons c r =>
        by_cases hc : c = '='
        · simp [List.isPrefixOf, hc]
        · simpa [List.isPrefixOf, hc] using Ne.symm hc
    simp only [htail, Option.bind_some, isPhpTag_eq, hequals, decide_eq_true_eq]
    have hwidth : width ((l ++ (['<', '?'] ++ r)).take (l.length + tagLength r)) =
        width l + tagLength r := by
      rw [List.take_length_add_append, width_append]
      exact congrArg _ (width_take_tagLength r)
    rw [hwidth]
    unfold tagLength
    split
    · rw [Nat.add_assoc]
    · split <;> rw [Nat.add_assoc]

/-- What `measure` makes of a block comment, for the text after its opening. -/
def commentMeasure (t : Text) : PieceKind × Nat :=
  match blockCommentLength t with
  | some n => (if t.head? = some '*' && 3 ≤ n then .doc else .comment, 1 + n)
  | none => (.broken .unterminatedComment, t.length + 1)

theorem width_pos_iff (t : Text) : 0 < width t ↔ 0 < t.length := by
  cases t with
  | nil => simp
  | cons c t =>
    have := c.utf8Size_pos
    simp only [width_cons, List.length_cons]
    omega

theorem commentAt_eq (pre t : Text) :
    commentAt (pre ++ '/' :: '*' :: t) (width pre) =
      some ((commentMeasure t).1,
        width pre + width ('/' :: ('*' :: t).take (commentMeasure t).2)) := by
  have hopening : width ['/', '*'] = 2 := rfl
  have hbody : after? (width pre + 2) (pre ++ '/' :: '*' :: t) = some t := by
    rw [← hopening]
    exact after?_append pre ['/', '*'] t
  have htake : ∀ n, width ('/' :: ('*' :: t).take (1 + n)) = 2 + width (t.take n) := by
    intro n
    rw [Nat.add_comm 1 n, List.take_succ_cons, ← hopening]
    exact width_append ['/', '*'] (t.take n)
  simp only [commentAt, commentMeasure, hbody, Option.bind_eq_bind, Option.bind_some,
    blockCommentLength_eq]
  cases hsplit : splitFirst ['*', '/'] t with
  | none => simp
  | some x =>
    obtain ⟨inner, r⟩ := x
    have ht := eq_append_of_splitFirst hsplit
    have hwhole : after? (width pre) (pre ++ '/' :: '*' :: t) = some ('/' :: '*' :: t) :=
      after?_width pre _
    have hdoc : ("/**" : Text).isPrefixOf ('/' :: '*' :: t) = decide (t.head? = some '*') := by
      cases t with
      | nil => rfl
      | cons c t =>
        by_cases hc : c = '*'
        · simp [List.isPrefixOf, hc]
        · simpa [List.isPrefixOf, hc] using Ne.symm hc
    have hlong : decide (4 < width pre + 2 + width inner + 2 - width pre) =
        decide (3 ≤ inner.length + 2) := by
      have := width_pos_iff inner
      exact decide_eq_decide.mpr (by omega)
    have hstop : width (t.take (inner.length + 2)) = width inner + 2 := by
      rw [ht, List.take_length_add_append, width_append]
      rfl
    simp only [hwhole, Option.bind_some, hdoc, hlong, Option.map_some, htake, hstop]
    rw [show width pre + 2 + width inner + 2 = width pre + (2 + (width inner + 2)) by omega]
    split <;> rfl

/-! ## 3. Labelled texts -/

/-- Where the label stands that closes a labelled text, sought from the start of a line on. -/
def closingStop (source label : Text) (line : Nat) : Option (Option Nat) :=
  if line ≤ width source then
    let place := line + ((bytesFrom source line).takeWhile isIndent).length
    let stop := place + width label
    match after? place source, after? line source with
    | some rest, some whole =>
      if label.isPrefixOf rest && !((bytesFrom source stop).head?.any isNameChar) then
        some (some stop)
      else match splitFirst ['\n'] whole with
        | some (l, _) => closingStop source label (line + width l + 1)
        | none => some none
    | _, _ => none
  else some none
termination_by width source + 1 - line
decreasing_by omega

theorem closesHere_octets (pre t label : Text) :
    (label.isPrefixOf (t.drop (t.takeWhile isIndent).length) &&
      !((bytesFrom (pre ++ t) (width pre + width (t.take (t.takeWhile isIndent).length)
        + width label)).head?.any isNameChar)) = closesHere label t := by
  simp only [closesHere]
  generalize hrest : t.drop (t.takeWhile isIndent).length = rest
  cases hlabel : label.isPrefixOf rest with
  | false => rw [Bool.false_and, Bool.false_and]
  | true =>
    obtain ⟨more, rfl⟩ := List.isPrefixOf_iff_prefix.mp hlabel
    have ht : t = t.take (t.takeWhile isIndent).length ++ (label ++ more) := by
      rw [← hrest, List.take_append_drop]
    have hbytes := bytesFrom_append (pre ++ t.take (t.takeWhile isIndent).length) label more
    rw [List.append_assoc, ← ht, width_append] at hbytes
    rw [hbytes, any_head_octets Blind.isNameChar, List.drop_left]

theorem closingStop_eq (pre t : Text) {label : Text} (hlabel : label ≠ []) :
    closingStop (pre ++ t) label (width pre) =
      some ((closingLength label true t).map fun n => width pre + width (t.take n)) := by
  have hin : width pre ≤ width (pre ++ t) := by simp
  rw [closingStop, closingLength_true hlabel, closingLength_false]
  simp only [hin, if_true, bytesFrom_width, length_takeWhile_octets Blind.isIndent, after?_place,
    after?_width, closesHere_octets]
  split
  · rename_i h
    have hindent : t.takeWhile isIndent = t.take (t.takeWhile isIndent).length :=
      List.prefix_iff_eq_take.mp (List.takeWhile_prefix isIndent)
    have hclosing : t.takeWhile isIndent ++ label =
        t.take ((t.takeWhile isIndent).length + label.length) := by
      rw [← List.length_append]
      exact List.prefix_iff_eq_take.mp (prefix_of_closesHere h)
    simp only [Option.map_some, ← hclosing, ← hindent, width_append, Nat.add_assoc]
  · cases hsplit : splitFirst ['\n'] t with
    | none => rfl
    | some x =>
      obtain ⟨l, r⟩ := x
      have ht := eq_append_of_splitFirst hsplit
      have ih := closingStop_eq (pre ++ (l ++ ['\n'])) r hlabel
      have htext : pre ++ (l ++ ['\n']) ++ r = pre ++ t := by
        rw [ht, List.append_assoc, List.append_assoc]
      have hplace : width (pre ++ (l ++ ['\n'])) = width pre + width l + 1 := by
        rw [width_append, width_append, Nat.add_assoc]
        rfl
      rw [htext, hplace] at ih
      simp only [ih, Option.map_map]
      congr 2
      funext n
      have htake : t.take (l.length + 1 + n) = l ++ ['\n'] ++ r.take n := by
        rw [ht, ← List.append_assoc, ← List.take_length_add_append, List.length_append]
        rfl
      rw [Function.comp_apply, htake, width_append, width_append]
      change _ = width pre + (width l + 1 + width (r.take n))
      omega
termination_by t.length
decreasing_by
  rw [ht, List.length_append, List.length_append, List.length_singleton]
  omega

/-- Where a labelled text ends whose label is closed, sought from an offset on. -/
def bodyStop (source label : Text) (pos : Nat) : Option (Except Defect Nat) := do
  let rest ← after? pos source
  match splitFirst ['\n'] rest with
  | none => some (.error .unterminatedLabelled)
  | some (l, _) =>
    match ← closingStop source label (pos + width l + 1) with
    | some stop => some (.ok stop)
    | none => some (.error .unterminatedLabelled)

/-- Where a labelled text ends whose label begins at an offset, after this quote if it has one. -/
def labelStop (source : Text) (quote : Option Char) (start : Nat) : Option (Except Defect Nat) := do
  let stop := start + nameLength (bytesFrom source start)
  let label ← slice? start stop source
  if label = [] then some (.error .invalidLabel)
  else if quote.isSome && (bytesFrom source stop).head? ≠ quote then some (.error .invalidLabel)
  else bodyStop source label (if quote.isSome then stop + 1 else stop)

/-- Where a labelled text ends that begins at an offset. -/
def labelledStop (source : Text) (start : Nat) : Option (Except Defect Nat) :=
  let pos := start + 3 + ((bytesFrom source (start + 3)).takeWhile isIndent).length
  let quote := labelQuote (bytesFrom source pos)
  labelStop source quote (if quote.isSome then pos + 1 else pos)

theorem bodyStop_eq (pre t : Text) (hlabel : label ≠ []) (n : Nat) :
    bodyStop (pre ++ t) label (width pre + width (t.take n)) =
      some (match closingLength label false (t.drop n) with
        | some m => .ok (width pre + width (t.take (n + m)))
        | none => .error .unterminatedLabelled) := by
  simp only [bodyStop, after?_place, Option.bind_eq_bind, Option.bind_some, closingLength_false]
  cases hsplit : splitFirst ['\n'] (t.drop n) with
  | none => rfl
  | some x =>
    obtain ⟨l, r⟩ := x
    have ht := eq_append_of_splitFirst hsplit
    have htext : pre ++ t.take n ++ (l ++ ['\n']) ++ r = pre ++ t := by
      rw [List.append_assoc, List.append_assoc, List.append_assoc, ← ht, List.take_append_drop]
    have hplace : width (pre ++ t.take n ++ (l ++ ['\n'])) =
        width pre + width (t.take n) + width l + 1 := by
      simp only [width_append, ← Nat.add_assoc]
      rfl
    have hclosing := closingStop_eq (pre ++ t.take n ++ (l ++ ['\n'])) r hlabel
    rw [htext, hplace] at hclosing
    simp only [hclosing, Option.bind_some]
    cases closingLength label true r with
    | none => rfl
    | some m =>
      have htake : (t.drop n).take (l.length + 1 + m) = l ++ ['\n'] ++ r.take m := by
        rw [ht, ← List.append_assoc, ← List.take_length_add_append, List.length_append]
        rfl
      simp only [Option.map_some, width_take_add, htake, width_append]
      congr 2
      change _ = width pre + (width (t.take n) + (width l + 1 + width (r.take m)))
      omega

theorem labelStop_eq (pre t : Text) {quote : Option Char}
    (hquote : ∀ q ∈ quote, q.toNat < 0x80) :
    labelStop (pre ++ t) quote (width pre) =
      some ((labelLength quote (if quote.isSome then 1 else 0) t).map
        fun n => width pre + width (t.take n)) := by
  have hslice := slice?_place pre t 0 (nameLength t)
  simp only [List.take_zero, width_nil, Nat.add_zero, Nat.zero_add, List.drop_zero] at hslice
  have hlength : (t.take (nameLength t)).length = nameLength t :=
    List.length_take_of_le (List.takeWhile_prefix _).length_le
  simp only [labelStop, labelLength, bytesFrom_width, nameLength_octets, hslice, bytesFrom_place,
    Option.bind_eq_bind, Option.bind_some, hlength, List.drop_drop]
  by_cases hlabel : t.take (nameLength t) = []
  · rw [if_pos hlabel, if_pos hlabel]
    rfl
  rw [if_neg hlabel, if_neg hlabel]
  cases quote with
  | none =>
    simp only [Option.isSome_none, Bool.false_and, Bool.false_eq_true, if_false,
      bodyStop_eq pre t hlabel, Nat.add_zero]
    cases closingLength (t.take (nameLength t)) false (t.drop (nameLength t)) <;> rfl
  | some q =>
    have hq : q.toNat < 0x80 := hquote q rfl
    simp only [Option.isSome_some, Bool.true_and, if_true, head_octets hq, decide_eq_true_eq, ne_eq]
    by_cases hhead : (t.drop (nameLength t)).head? = some q
    · rw [if_neg (not_not_intro hhead), if_neg (not_not_intro hhead), Nat.add_assoc,
        ← width_take_succ hq hhead, bodyStop_eq pre t hlabel]
      cases closingLength (t.take (nameLength t)) false (t.drop (nameLength t + 1)) <;> rfl
    · rw [if_pos hhead, if_pos hhead]
      rfl

theorem labelQuote_octets (t : Text) : labelQuote (octets t) = labelQuote t := by
  refine head_filter_octets (fun c hc => ?_) t
  rcases Bool.or_eq_true_iff.mp hc with h | h <;> rw [of_decide_eq_true h] <;> decide

theorem of_labelQuote {t : Text} {q : Char} (h : labelQuote t = some q) :
    q.toNat < 0x80 ∧ t.head? = some q := by
  obtain ⟨hhead, hq⟩ := Option.filter_eq_some_iff.mp h
  refine ⟨?_, hhead⟩
  rcases Bool.or_eq_true_iff.mp hq with h | h <;> rw [of_decide_eq_true h] <;> decide

theorem labelStop_place (pre t : Text) (n : Nat) {quote : Option Char}
    (hquote : ∀ q ∈ quote, q.toNat < 0x80) :
    labelStop (pre ++ t) quote (width pre + width (t.take n)) =
      some ((labelLength quote (if quote.isSome then 1 else 0) (t.drop n)).map
        fun m => width pre + width (t.take (n + m))) := by
  obtain ⟨htext, hplace⟩ := exists_place pre t n
  have h := labelStop_eq (pre ++ t.take n) (t.drop n) hquote
  rw [← htext, ← hplace] at h
  simp only [h, width_take_add, Nat.add_assoc]

theorem labelledStop_eq (pre t : Text) :
    labelledStop (pre ++ '<' :: '<' :: '<' :: t) (width pre) =
      some ((labelledLength t).map fun n => width pre + 3 + width (t.take n)) := by
  have hopening : width ['<', '<', '<'] = 3 := rfl
  have htext : pre ++ '<' :: '<' :: '<' :: t = pre ++ ['<', '<', '<'] ++ t := by simp
  have hplace : width pre + 3 = width (pre ++ ['<', '<', '<']) := by rw [width_append, hopening]
  have hmap : ∀ (k : Nat) (f : Nat → Nat) (e : Except Defect Nat),
      (e.map (k + ·)).map f = e.map fun m => f (k + m) := by
    intro k f e
    cases e <;> rfl
  rw [labelledStop, htext, hplace]
  generalize pre ++ ['<', '<', '<'] = pre'
  simp only [bytesFrom_width, length_takeWhile_octets Blind.isIndent, bytesFrom_place,
    labelQuote_octets, labelledLength_eq, hmap, List.drop_drop]
  generalize (t.takeWhile isIndent).length = indent
  cases hquote : labelQuote (t.drop indent) with
  | none => exact labelStop_place pre' t indent (by simp)
  | some q =>
    obtain ⟨hq, hhead⟩ := of_labelQuote hquote
    have hquoted : ∀ d ∈ some q, d.toNat < 0x80 := by simpa using hq
    have h := labelStop_place pre' t (indent + 1) hquoted
    rw [width_take_succ hq hhead, ← Nat.add_assoc] at h
    exact h

/-! ## 4. One piece -/

/-- The piece at an offset that is one character of no further meaning. -/
def otherAt (source : Text) (start : Nat) : Option (PieceKind × Nat) := do
  let rest ← after? start source
  some (.token .other, start + (rest.head?.map Char.utf8Size).getD 1)

/-- The piece at an offset where `<` stands. -/
def angleAt (source : Text) (start : Nat) : Option (PieceKind × Nat) := do
  let rest ← after? start source
  if ("<<<" : Text).isPrefixOf rest then
    match ← labelledStop source start with
    | .ok stop => some (.token .string, stop)
    | .error defect => some (.broken defect, width source)
  else otherAt source start

/-- The piece at an offset where a question mark stands. -/
def markAt (source : Text) (start : Nat) : Option (PieceKind × Nat) := do
  let rest ← after? start source
  if ("?->" : Text).isPrefixOf rest then some (.token .arrow, start + 3)
  else otherAt source start

/-- The piece at an offset where the byte `b` stands, with `bs` after it, and the offset at which
it ends. A piece that does not end goes up to the end of the text. -/
def pieceAt (source : Text) (start : Nat) (b : Char) (bs : List Char) : Option (PieceKind × Nat) :=
  let upTo := fun (kind : PieceKind) (n : Nat) => some (kind, start + n)
  if isAsciiBlank b then upTo .blank 1
  else if b = '?' && bs.head? = some '>' then
    (markupStop source (start + 2)).map fun stop => (.markup, stop)
  else if b = '#' && bs.head? = some '[' then upTo (.token .attrOpen) 2
  else if b = '#' || (b = '/' && bs.head? = some '/') then
    upTo .comment (lineCommentLength (b :: bs))
  else if b = '/' && bs.head? = some '*' then commentAt source start
  else if b = '\'' || b = '"' || b = '\x60' then
    match quotedLength b bs with
    | some n => upTo (.token .string) (1 + n)
    | none => some (.broken .unterminatedString, width source)
  else if b = '<' then angleAt source start
  else if b = '$' && startsName bs then upTo (.token .variable) (1 + nameLength bs)
  else if b = '\\' && startsName bs then upTo (.token .name) (1 + qualifiedLength bs)
  else if isNameStart b then upTo (.token .name) (qualifiedLength (b :: bs))
  else if b.isDigit then upTo (.token .number) (numberLength (b :: bs))
  else if b = '-' && bs.head? = some '>' then upTo (.token .arrow) 2
  else if b = '?' then markAt source start
  else if b = ':' && bs.head? = some ':' then upTo (.token .doubleColon) 2
  else if b = '(' then upTo (.token .openParen) 1
  else if b = '{' then upTo (.token .openBrace) 1
  else if b = '[' then upTo (.token .openBracket) 1
  else if b = ')' then upTo (.token .closeParen) 1
  else if b = '}' then upTo (.token .closeBrace) 1
  else if b = ']' then upTo (.token .closeBracket) 1
  else if b = ',' then upTo (.token .comma) 1
  else if b = ';' then upTo (.token .semicolon) 1
  else if b = ':' then upTo (.token .colon) 1
  else if b = '.' && bs.head? ≠ some '.' && bs.head? ≠ some '=' then upTo (.token .dot) 1
  else otherAt source start

/-- The kind of a piece with the offset at which it ends, for a piece that begins after `pre` with
`c` and takes along a number of the characters that follow. -/
def endOf (pre : Text) (c : Char) (cs : Text) (r : PieceKind × Nat) : PieceKind × Nat :=
  (r.1, width pre + width (c :: cs.take r.2))

theorem isPrefixOf_cons (c : Char) (word cs : Text) :
    (c :: word).isPrefixOf (c :: cs) = decide (cs.take word.length = word) := by
  rw [Bool.eq_iff_iff, List.isPrefixOf_iff_prefix, decide_eq_true_iff, List.cons_prefix_cons,
    List.prefix_iff_eq_take]
  simp [eq_comm]

theorem otherAt_eq (pre : Text) (c : Char) (cs : Text) :
    otherAt (pre ++ c :: cs) (width pre) = some (endOf pre c cs (.token .other, 0)) := by
  simp [otherAt, after?_width, endOf]

theorem measure_angle (cs : Text) : measure '<' cs =
    if cs.take 2 = ['<', '<'] then
      match labelledLength (cs.drop 2) with
      | .ok n => (.token .string, 2 + n)
      | .error defect => (.broken defect, cs.length)
    else (.token .other, 0) := by
  by_cases h : cs.take 2 = ['<', '<']
  · rw [if_pos h]
    simp only [measure, h]
    rfl
  · simp [measure, isAsciiBlank, isNameStart, h]

theorem angleAt_eq (pre cs : Text) :
    angleAt (pre ++ '<' :: cs) (width pre) = some (endOf pre '<' cs (measure '<' cs)) := by
  simp only [angleAt, after?_width, Option.bind_eq_bind, Option.bind_some, measure_angle]
  have hbegins : ("<<<" : Text).isPrefixOf ('<' :: cs) = decide (cs.take 2 = ['<', '<']) :=
    isPrefixOf_cons '<' ['<', '<'] cs
  rw [hbegins]
  by_cases h : cs.take 2 = ['<', '<']
  · obtain ⟨t, rfl⟩ : ∃ t, cs = '<' :: '<' :: t := by
      have hcs := List.take_append_drop 2 cs
      rw [h] at hcs
      exact ⟨_, hcs.symm⟩
    have hend : ∀ n, width pre + 3 + width (t.take n) =
        width pre + width ('<' :: ('<' :: '<' :: t).take (2 + n)) := by
      intro n
      rw [Nat.add_comm 2 n, List.take_succ_cons, List.take_succ_cons, Nat.add_assoc]
      exact congrArg _ (width_append ['<', '<', '<'] _).symm
    simp only [decide_true, if_true, labelledStop_eq, Option.bind_some, List.take_succ_cons,
      List.take_zero, List.drop_succ_cons, List.drop_zero]
    cases labelledLength t with
    | error defect => simp [endOf, Except.map]
    | ok n => simp only [Except.map, endOf, hend]
  · simp only [h, decide_false, Bool.false_eq_true, if_false]
    exact otherAt_eq pre '<' cs

theorem measure_mark {cs : Text} (hcs : cs.head? ≠ some '>') : measure '?' cs =
    if cs.take 2 = ['-', '>'] then (.token .arrow, 2) else (.token .other, 0) := by
  by_cases h : cs.take 2 = ['-', '>'] <;> simp [measure, isAsciiBlank, isNameStart, hcs, h]

theorem markAt_eq (pre : Text) {cs : Text} (hcs : cs.head? ≠ some '>') :
    markAt (pre ++ '?' :: cs) (width pre) = some (endOf pre '?' cs (measure '?' cs)) := by
  simp only [markAt, after?_width, Option.bind_eq_bind, Option.bind_some, measure_mark hcs]
  have hbegins : ("?->" : Text).isPrefixOf ('?' :: cs) = decide (cs.take 2 = ['-', '>']) :=
    isPrefixOf_cons '?' ['-', '>'] cs
  rw [hbegins]
  by_cases h : cs.take 2 = ['-', '>']
  · simp only [h, decide_true, if_true, endOf]
    rfl
  · simp only [h, decide_false, Bool.false_eq_true, if_false]
    exact otherAt_eq pre '?' cs

theorem closingMarkAt_eq (pre t : Text) :
    (markupStop (pre ++ '?' :: '>' :: t) (width pre + 2)).map (fun stop => (PieceKind.markup, stop)) =
      some (endOf pre '?' ('>' :: t) (.markup, 1 + markupLength t)) := by
  have htwo : ∀ x : Text, width ('?' :: '>' :: x) = 2 + width x := fun x =>
    width_append ['?', '>'] x
  have h := markupStop_eq (pre ++ ['?', '>']) t
  have hplace : width (pre ++ ['?', '>']) = width pre + 2 := width_append pre ['?', '>']
  rw [hplace, List.append_assoc] at h
  simp only [List.cons_append, List.nil_append] at h
  rw [h, Option.map_some, endOf, Nat.add_comm 1, List.take_succ_cons, htwo, Nat.add_assoc]

theorem pieceAt_mark (source : Text) (start : Nat) {bs : List Char} (hbs : bs.head? ≠ some '>') :
    pieceAt source start '?' bs = markAt source start := by
  simp [pieceAt, isAsciiBlank, isNameStart, hbs]

theorem agree_ite {α β : Type} {G : α → β} {p : Prop} [Decidable p] {x x' : Option β} {y y' : α}
    (hthen : p → x = some (G y)) (helse : ¬ p → x' = some (G y')) :
    (if p then x else x') = some (G (if p then y else y')) := by
  split
  · exact hthen ‹_›
  · exact helse ‹_›

/-- The piece that begins with an ASCII character. -/
theorem pieceAt_ascii (pre : Text) {c : Char} (cs : Text) (hc : c.toNat < 0x80) :
    pieceAt (pre ++ c :: cs) (width pre) c (octets cs) =
      some (endOf pre c cs (measure c cs)) := by
  have hone : ∀ (kind : PieceKind) (n : Nat),
      endOf pre c cs (kind, n) = (kind, width pre + (1 + width (cs.take n))) := by
    intro kind n
    rw [endOf, width_cons, utf8Size_ascii hc]
  have hsingle : ∀ kind : PieceKind, some (kind, width pre + 1) = some (endOf pre c cs (kind, 0)) := by
    intro kind
    rw [hone]
    rfl
  have hpair : ∀ (kind : PieceKind) (d : Char), d.toNat < 0x80 → cs.head? = some d →
      some (kind, width pre + 2) = some (endOf pre c cs (kind, 1)) := by
    intro kind d hd hcs
    rw [hone, width_take_succ (n := 0) hd hcs]
    rfl
  by_cases hmark : c = '?' ∧ cs.head? ≠ some '>'
  · obtain ⟨rfl, hcs⟩ := hmark
    rw [pieceAt_mark _ _ (mt (head_octets (by decide) cs).mp hcs)]
    exact markAt_eq pre hcs
  by_cases hangle : c = '<'
  · subst hangle
    exact angleAt_eq pre cs
  unfold pieceAt measure
  simp only [head_octets (show '>'.toNat < 0x80 by decide), head_octets (show '['.toNat < 0x80 by decide),
    head_octets (show '/'.toNat < 0x80 by decide), head_octets (show '*'.toNat < 0x80 by decide),
    head_octets (show ':'.toNat < 0x80 by decide), head_octets (show '.'.toNat < 0x80 by decide),
    head_octets (show '='.toNat < 0x80 by decide), startsName_octets, ne_eq]
  -- blanks
  refine agree_ite (fun _ => hsingle _) (fun _ => ?_)
  -- inline markup
  refine agree_ite (fun h => ?_) (fun hclosing => ?_)
  · obtain ⟨rfl, hcs⟩ : c = '?' ∧ cs.head? = some '>' := by simpa using h
    obtain ⟨t, rfl⟩ := List.head?_eq_some_iff.mp hcs
    exact closingMarkAt_eq pre t
  have hnotmark : c ≠ '?' := by
    intro hc'
    by_cases hcs : cs.head? = some '>'
    · exact hclosing (by simp [hc', hcs])
    · exact hmark ⟨hc', hcs⟩
  -- the opening of attributes
  refine agree_ite (fun h => ?_) (fun _ => ?_)
  · exact hpair _ '[' (by decide) (by simp at h; exact h.2)
  -- line comments
  refine agree_ite (fun h => ?_) (fun _ => ?_)
  · have hline : c ≠ '\n' := by
      rintro rfl
      simp at h
    rw [hone, lineCommentLength_cons, if_neg (by simp [hline, hnotmark]), lineCommentLength_octets,
      Nat.add_comm 1]
  -- block comments
  refine agree_ite (fun h => ?_) (fun _ => ?_)
  · obtain ⟨rfl, hcs⟩ : c = '/' ∧ cs.head? = some '*' := by simpa using h
    obtain ⟨t, rfl⟩ := List.head?_eq_some_iff.mp hcs
    exact commentAt_eq pre t
  -- strings
  refine agree_ite (fun h => ?_) (fun _ => ?_)
  · rw [quotedLength_octets hc]
    cases quotedLength c cs with
    | none => simp [endOf]
    | some n => simp [hone]
  -- labelled texts begin with the character left out above
  simp only [hangle, decide_false, Bool.false_and, Bool.false_eq_true, if_false]
  -- variables and names
  refine agree_ite (fun _ => ?_) (fun _ => ?_)
  · rw [hone, nameLength_octets]
  refine agree_ite (fun _ => ?_) (fun _ => ?_)
  · rw [hone, qualifiedLength_octets]
  refine agree_ite (fun h => ?_) (fun _ => ?_)
  · have hcons : qualifiedLength (c :: octets cs) = qualifiedLength (octets cs) + 1 := by
      simp [qualifiedLength, isNameChar, h]
    rw [hone, hcons, qualifiedLength_octets, Nat.add_comm 1]
  -- numbers
  refine agree_ite (fun h => ?_) (fun _ => ?_)
  · have hcons : numberLength (c :: octets cs) = numberLength (octets cs) + 1 := by
      simp [numberLength, Char.isAlphanum, h]
    rw [hone, hcons, numberLength_octets, Nat.add_comm 1]
  -- arrows and colons
  refine agree_ite (fun h => ?_) (fun _ => ?_)
  · exact hpair _ '>' (by decide) (by simp at h; exact h.2)
  simp only [hnotmark, decide_false, Bool.false_and, Bool.false_eq_true, if_false]
  refine agree_ite (fun h => ?_) (fun _ => ?_)
  · exact hpair _ ':' (by decide) (by simp at h; exact h.2)
  -- single characters
  iterate 9 refine agree_ite (fun _ => hsingle _) (fun _ => ?_)
  refine agree_ite (fun _ => hsingle _) (fun _ => ?_)
  exact otherAt_eq pre c cs

theorem pieceAt_name (source : Text) (start : Nat) {b : Char} (hb : 0x80 ≤ b.toNat)
    (bs : List Char) :
    pieceAt source start b bs = some (.token .name, start + qualifiedLength (b :: bs)) := by
  have hne : ∀ d : Char, d.toNat < 0x80 → b ≠ d := fun d hd => ne_of_le hb hd
  have hblank : isAsciiBlank b = false := by
    simp only [isAsciiBlank, hne ' ' (by decide), hne '\t' (by decide), hne '\n' (by decide),
      hne '\x0c' (by decide), hne '\r' (by decide), decide_false, Bool.or_self]
  have hstart : isNameStart b = true := by simp [isNameStart, hb]
  simp only [pieceAt, hblank, hne '?' (by decide), hne '#' (by decide), hne '/' (by decide),
    hne '\'' (by decide), hne '"' (by decide), hne '\x60' (by decide), hne '<' (by decide),
    hne '$' (by decide), hne '\\' (by decide), hstart, decide_false, Bool.false_and,
    Bool.false_eq_true, if_false, Bool.or_self, if_true]

/-- The piece that the bytes of a text give is the one its characters give, and no part of the
text that is asked for on the way to it is refused. -/
theorem pieceAt_eq (pre : Text) (c : Char) (cs : Text) {b : Char} {bs : List Char}
    (hbytes : octets (c :: cs) = b :: bs) :
    pieceAt (pre ++ c :: cs) (width pre) b bs = some (endOf pre c cs (measure c cs)) := by
  rcases octetsOf_cases c with ⟨hc, ho⟩ | ⟨hc, o, os, ho, hos⟩
  · rw [octets_cons, ho, List.singleton_append, List.cons.injEq] at hbytes
    obtain ⟨rfl, rfl⟩ := hbytes
    exact pieceAt_ascii pre cs hc
  · have hb : 0x80 ≤ b.toNat := by
      rw [octets_cons, ho, List.cons_append, List.cons.injEq] at hbytes
      exact hbytes.1 ▸ hos o (by simp)
    have hname : isNameStart c = true := by simp [isNameStart, hc]
    have hmore : qualifiedLength (c :: cs) = qualifiedLength cs + 1 := by
      simp [qualifiedLength, isNameChar, hname]
    rw [pieceAt_name _ _ hb, ← hbytes, qualifiedLength_octets, measure_name hname, hmore]
    rfl

end Checked

end Source

end Crosslink
