import Crosslink.Proofs.Places
import Crosslink.Proofs.Checked.Pieces

/-!
# Reading tokens with every access checked

`Checked.tokenize` reads a source byte by byte, looks every bracket up by the index it was put aside
under, makes every span from two offsets that have to be in order, and cuts every token out of the
source at its span. `Checked.arguments` looks up each token of a bracketed list in the same way. Where
an index is out of range, a span the wrong way round, or a part of the source does not exist, they
have no result, and neither has a loop that does not get on.

They always have one: that of `tokenize` and `TokenSequence.arguments`.

* §1 Open brackets stand where their index says.
* §2 The tokens of a source.
* §3 Arguments.

## Main statements

* `Checked.tokenize_eq`, `Checked.arguments_eq`.
-/

namespace Crosslink.Source

open Text

/-! ## 1. Open brackets -/

namespace Reading

variable {r r' : Reading} {t : Token}

/-- The brackets still open are put aside innermost first, each with the index it stands at. -/
structure Waiting (r : Reading) : Prop where
  order : r.opened.Pairwise fun a b => b.1 < a.1
  stands : ∀ x ∈ r.opened, r.tokens[x.1]? = some x.2

theorem Waiting.empty : Waiting {} where
  order := .nil
  stands := by simp

theorem Waiting.lt_size (h : r.Waiting) {x : Nat × Token} (hx : x ∈ r.opened) :
    x.1 < r.tokens.size :=
  (Array.getElem?_eq_some_iff.mp (h.stands x hx)).1

theorem Waiting.adds (h : r.Waiting) (ha : Adds r t r') : r'.Waiting := by
  cases ha with
  | plain =>
    refine ⟨h.order, fun x hx => ?_⟩
    exact getElem?_push_eq_some.mpr (Or.inl (h.stands x hx))
  | opening =>
    refine ⟨List.pairwise_cons.mpr ⟨fun x hx => h.lt_size hx, h.order⟩, fun x hx => ?_⟩
    rcases List.mem_cons.mp hx with rfl | hx
    · exact getElem?_push_eq_some.mpr (Or.inr ⟨rfl, rfl⟩)
    · exact getElem?_push_eq_some.mpr (Or.inl (h.stands x hx))
  | @closing openers i o rest opens closes opened pairs =>
    have horder := h.order
    rw [opened] at horder
    obtain ⟨hinner, hrest⟩ := List.pairwise_cons.mp horder
    refine ⟨hrest, fun x hx => getElem?_close.mpr (Or.inr (Or.inl ⟨?_, ?_⟩))⟩
    · exact Nat.ne_of_lt (hinner x hx)
    · exact h.stands x (opened ▸ List.mem_cons_of_mem _ hx)

end Reading

/-! ## 2. The tokens of a source -/

namespace Checked

/-- Add a token. The bracket that a closing one pairs with is looked up by its index. -/
def addToken (r : Reading) (kind : TokenKind) (span : Span) (text : Text) :
    Option (Except BracketError Reading) :=
  let t : Token := ⟨kind, span, text, none⟩
  let index := r.tokens.size
  if kind.opens then some (.ok { r.push t with opened := (index, t) :: r.opened })
  else match kind.closes with
    | none => some (.ok (r.push t))
    | some openers =>
      match r.opened with
      | [] => some (.error (.unmatched text))
      | (i, _) :: rest => do
        let o ← r.tokens[i]?
        if openers.contains o.kind then
          let paired := r.tokens.modify i fun o => { o with partner := some index }
          some (.ok { r with
            tokens := paired.push { t with partner := some i }, opened := rest })
        else some (.error (.crossed text o.text))

/-- What has been read when the source ends. -/
def finish (source : Text) (r : Reading) : Option (Except SyntaxError TokenSequence) :=
  match r.opened with
  | [] => some (.ok ⟨r.tokens, r.docs.reverse⟩)
  | (i, _) :: _ => do
    let o ← r.tokens[i]?
    some (.error (.locate source o.span.start (BracketError.message (.unclosed o.text))))

/-- Read a source from an offset on. Each piece has to end after the offset it begins at. -/
def readFrom (source : Text) (pos : Nat) (r : Reading) :
    Option (Except SyntaxError TokenSequence) :=
  match bytesFrom source pos with
  | [] => finish source r
  | b :: bs => do
    let (kind, stop) ← pieceAt source pos b bs
    if _h : pos < stop ∧ stop ≤ width source then
      match kind with
      | .broken defect => some (.error (.locate source pos defect.message))
      | .doc =>
        let span ← Span.between? pos stop
        readFrom source stop { r with docs := span :: r.docs }
      | .token kind =>
        let span ← Span.between? pos stop
        let text ← span.slice? source
        match ← addToken r kind span text with
        | .ok r => readFrom source stop r
        | .error e => some (.error (.locate source pos e.message))
      | _ => readFrom source stop r
    else none
termination_by width source - pos

/-- Read a source. -/
def tokenize (source : Text) : Option (Except SyntaxError TokenSequence) :=
  if Text.contains "<?" source then do
    let stop ← markupStop source 0
    readFrom source stop {}
  else readFrom source 0 {}

variable {r : Reading} {source : Text}

theorem addToken_eq (h : r.Waiting) (kind : TokenKind) (span : Span) (text : Text) :
    addToken r kind span text = some (r.token kind span text) := by
  unfold addToken Reading.token
  simp only
  split
  · rfl
  · cases kind.closes with
    | none => rfl
    | some openers =>
      cases hopened : r.opened with
      | nil => rfl
      | cons x rest =>
        obtain ⟨i, o⟩ := x
        have hstands := h.stands (i, o) (by simp [hopened])
        simp only [hstands, Option.bind_eq_bind, Option.bind_some]
        split <;> rfl

theorem finish_eq (h : r.Waiting) (offset : Nat) :
    finish source r = some (readPieces source offset r []) := by
  unfold finish readPieces
  cases hopened : r.opened with
  | nil => rfl
  | cons x rest =>
    obtain ⟨i, o⟩ := x
    have hstands := h.stands (i, o) (by simp [hopened])
    simp only [hstands, Option.bind_eq_bind, Option.bind_some]

theorem readFrom_eq (pre t : Text) {r : Reading} (h : r.Waiting) :
    readFrom (pre ++ t) (width pre) r = some (readPieces (pre ++ t) (width pre) r (cutCode t)) := by
  cases t with
  | nil =>
    rw [readFrom, bytesFrom_width, cutCode]
    exact finish_eq h _
  | cons c cs =>
    obtain ⟨b, bs, hbytes⟩ : ∃ b bs, octets (c :: cs) = b :: bs := by
      refine List.exists_cons_of_length_pos ?_
      have := c.utf8Size_pos
      rw [length_octets, width_cons]
      omega
    have hpiece := pieceAt_eq pre c cs hbytes
    rw [readFrom, bytesFrom_width, hbytes, cutCode_cons]
    simp only [hpiece, Option.bind_eq_bind, Option.bind_some, endOf]
    generalize (measure c cs).1 = kind
    generalize hn : (measure c cs).2 = n
    have htext : pre ++ c :: cs = pre ++ (c :: cs.take n ++ cs.drop n) := by
      rw [List.cons_append, List.take_append_drop]
    generalize hm : c :: cs.take n = m at htext
    have hpos : 0 < width m := by
      have := c.utf8Size_pos
      rw [← hm, width_cons]
      omega
    have hwithin : width pre < width pre + width m ∧ width pre + width m ≤ width (pre ++ c :: cs) := by
      rw [htext, width_append, width_append]
      omega
    have hspan : Span.between? (width pre) (width pre + width m) =
        some ⟨width pre, width pre + width m⟩ := Span.between?_of_le (by omega)
    have hfits : Span.Fits (pre ++ c :: cs) ⟨width pre, width pre + width m⟩ := by
      rw [htext]
      refine ⟨by simp, isBoundary_width pre _, ?_⟩
      rw [← width_append, ← List.append_assoc]
      exact isBoundary_width _ _
    have hslice : Span.slice? ⟨width pre, width pre + width m⟩ (pre ++ c :: cs) = some m := by
      rw [hfits.slice?_eq, Span.slice, htext, slice_middle]
    -- reading on after the piece
    have hnext : ∀ r' : Reading, r'.Waiting →
        readFrom (pre ++ c :: cs) (width pre + width m) r' =
          some (readPieces (pre ++ c :: cs) (width pre + width m) r' (cutCode (cs.drop n))) := by
      intro r' hr'
      have ih := readFrom_eq (pre ++ m) (cs.drop n) hr'
      rwa [List.append_assoc, ← htext, width_append] at ih
    rw [dif_pos hwithin]
    cases kind with
    | broken defect => rfl
    | doc =>
      simp only [hspan, Option.bind_some, readPieces]
      exact hnext _ ⟨h.order, h.stands⟩
    | token kind =>
      simp only [hspan, hslice, Option.bind_some, readPieces, addToken_eq h]
      cases htoken : r.token kind ⟨width pre, width pre + width m⟩ m with
      | error e => rfl
      | ok r' =>
        exact hnext r' (h.adds (Reading.token_eq_some.mp (by rw [htoken]; rfl)))
    | blank => exact hnext r h
    | comment => exact hnext r h
    | markup => exact hnext r h
termination_by t.length
decreasing_by
  rw [List.length_drop, List.length_cons]
  omega

/-- Every source has its tokens or an error, with every access in range. -/
theorem tokenize_eq (source : Text) : tokenize source = some (Source.tokenize source) := by
  unfold tokenize Source.tokenize cut
  split
  · have hstop := markupStop_eq [] source
    have h := readFrom_eq (source.take (markupLength source)) (source.drop (markupLength source))
      Reading.Waiting.empty
    rw [List.take_append_drop] at h
    simp only [List.nil_append, width_nil, Nat.zero_add] at hstop
    rw [hstop]
    simp only [Option.bind_eq_bind, Option.bind_some, readPieces, Nat.zero_add]
    exact h
  · have h := readFrom_eq [] source Reading.Waiting.empty
    exact h

/-! ## 3. Arguments -/

/-- The argument from one token to another. -/
def argument (l : TokenSequence) (source : Text) (first last : Nat) : Option Argument := do
  let f ← l.tokens[first]?
  let t ← l.tokens[last]?
  let span ← Span.between? f.span.start t.span.stop
  let text ← span.slice? source
  some ⟨span, text⟩

/-- The argument being read, if there is one. -/
def finished (l : TokenSequence) (source : Text) : Option (Nat × Nat) → Option (List Argument)
  | none => some []
  | some (f, t) => (argument l source f t).map ([·])

/-- The last token of what begins with the token `t` at an index: the partner of an opening bracket,
and the token itself otherwise. -/
def lastFrom (i : Nat) (t : Token) : Nat :=
  match t.partner with
  | some p => if i < p then p else i
  | none => i

theorem le_lastFrom (i : Nat) (t : Token) : i ≤ lastFrom i t := by
  unfold lastFrom
  split
  · split <;> omega
  · exact Nat.le_refl i

/-- The arguments between the tokens `i` and `close`, of which the one being read goes from the
first to the second token of `open?` so far. -/
def argumentsFrom (l : TokenSequence) (source : Text) (close : Nat) (open? : Option (Nat × Nat))
    (i : Nat) : Option (List Argument) :=
  if i < close then do
    let t ← l.tokens[i]?
    if t.kind = .comma then
      let done ← finished l source open?
      let rest ← argumentsFrom l source close none (i + 1)
      some (done ++ rest)
    else
      let last := lastFrom i t
      argumentsFrom l source close (some ((open?.map Prod.fst).getD i, last)) (last + 1)
  else finished l source open?
termination_by close - i
decreasing_by
  · omega
  · have := le_lastFrom i t
    omega

/-- The arguments of the list that the token at an index opens. -/
def arguments (l : TokenSequence) (source : Text) (opener : Nat) : Option (List Argument) :=
  match l.tokens[opener]?.bind Token.partner with
  | none => some []
  | some close => argumentsFrom l source close none (opener + 1)

variable {l : TokenSequence} {i j o c : Nat} {t : Token}

theorem lastFrom_eq (ht : l.tokens[i]? = some t) : lastFrom i t = l.lastOf i := by
  have hpartner : l.partnerAt i = t.partner := by rw [TokenSequence.partnerAt, ht, Option.bind_some]
  cases hp : t.partner with
  | none => simp only [lastFrom, TokenSequence.lastOf, hpartner, hp]
  | some p => simp only [lastFrom, TokenSequence.lastOf, hpartner, hp]

theorem isKind_eq (ht : l.tokens[i]? = some t) (kind : TokenKind) :
    l.isKind i kind = decide (t.kind = kind) := by
  simp [TokenSequence.isKind, TokenSequence.kindAt, ht]

theorem argument_eq (hl : Source.tokenize source = .ok l) (hij : i ≤ j) (hj : j < l.tokens.size) :
    argument l source i j = some (l.argument source i j) := by
  have hi : i < l.tokens.size := Nat.lt_of_le_of_lt hij hj
  have ht := Array.getElem?_eq_getElem hi
  have hu := Array.getElem?_eq_getElem hj
  have hcovers : Covers l (l.argument source i j).span i j := covers_argument hij hj
  have hfits := hcovers.fits hl
  have hspan : (l.argument source i j).span = ⟨l.tokens[i].span.start, l.tokens[j].span.stop⟩ := by
    simp [TokenSequence.argument, TokenSequence.stopAt, ht, hu]
  rw [hspan] at hfits
  have htext : (l.argument source i j).text = (l.argument source i j).span.slice source := rfl
  simp only [argument, ht, hu, Option.bind_eq_bind, Option.bind_some,
    Span.between?_of_le hfits.le, hfits.slice?_eq]
  rw [← hspan, ← htext]

theorem finished_eq (hl : Source.tokenize source = .ok l) {open? : Option (Nat × Nat)}
    (hopen : ∀ s ∈ open?, s.1 ≤ s.2 ∧ s.2 < l.tokens.size) :
    finished l source open? =
      some (open?.map fun (f, t) => l.argument source f t).toList := by
  cases open? with
  | none => rfl
  | some s =>
    obtain ⟨hle, hlt⟩ := hopen s rfl
    simp [finished, argument_eq hl hle hlt]

theorem argumentsFrom_eq (hl : Source.tokenize source = .ok l) (hc : l.partnerAt o = some c)
    (open? : Option (Nat × Nat)) (i : Nat) (ho : o < i)
    (hopen : ∀ s ∈ open?, s.1 ≤ s.2 ∧ s.2 < i ∧ s.2 < l.tokens.size) :
    argumentsFrom l source c open? i = some (l.argumentsFrom source c open? i) := by
  have hn := nested_of_tokenize hl
  have hcsize := hn.lt_size hc
  have hdone := finished_eq hl fun s hs => ⟨(hopen s hs).1, (hopen s hs).2.2⟩
  rw [argumentsFrom, TokenSequence.argumentsFrom]
  by_cases hi : i < c
  · have hisize : i < l.tokens.size := by omega
    have ht := Array.getElem?_eq_getElem hisize
    simp only [if_pos hi, ht, Option.bind_eq_bind, Option.bind_some, isKind_eq ht,
      decide_eq_true_eq, lastFrom_eq ht]
    split
    · have ih := argumentsFrom_eq hl hc none (i + 1) (by omega) (by simp)
      simp only [hdone, ih, Option.bind_some]
    · have hle := l.le_lastOf i
      have hlt := hn.lastOf_lt hc ho hi
      refine argumentsFrom_eq hl hc _ (l.lastOf i + 1) (by omega) ?_
      intro s hs
      obtain rfl := Option.some.inj hs
      refine ⟨?_, by omega, by omega⟩
      cases hopen? : open? with
      | none => exact hle
      | some u =>
        have := hopen u hopen?
        simp only [Option.map_some, Option.getD_some]
        omega
  · simp only [if_neg hi]
    exact hdone
termination_by c - i

/-- The arguments of every list of a source are found with every access in range. -/
theorem arguments_eq (hl : Source.tokenize source = .ok l) (o : Nat) :
    arguments l source o = some (l.arguments source o) := by
  unfold arguments TokenSequence.arguments
  cases hc : l.partnerAt o with
  | none =>
    rw [show l.tokens[o]?.bind Token.partner = none from hc]
  | some c =>
    rw [show l.tokens[o]?.bind Token.partner = some c from hc]
    exact argumentsFrom_eq hl hc none (o + 1) (by omega) (by simp)

end Checked

end Crosslink.Source
