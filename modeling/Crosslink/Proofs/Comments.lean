import Crosslink.Proofs.Conflicts
import Crosslink.Proofs.Partition
import Crosslink.Proofs.Recovering
import Crosslink.Proofs.Restoring
import Crosslink.Proofs.Splicing

/-!
# What removal leaves of the comments

Links are taken out of a text by splices that put nothing in, so what is left of the text is said by
the spans that go. A comment outside the brackets of what loses a link either keeps clear of all
these spans, and then it still stands in the result behind the comments before it, or it goes as a
whole.

In attribute lists no such comment goes: with a group go blanks only. In a chain those go that stand
between the end of what is before a call and its opening parenthesis when the call goes as a whole,
since the call goes from there to its end.

* §1 `Text.without`, the text that is left.
* §2 `comments`, what stands at the ends of a comment, and `Leaves`, what is left with the comments
  in it.
* §3 Splices that put nothing in.
* §4 Chained calls.
* §5 Attribute groups.
* §6 Both.

## Main statements

* `remove_comments`: the comments that are left when links are removed.
* `remove_loses_comment`: a comment that is not left.
-/

namespace Crosslink

open Splice

/-! ## §1 What is left of a text -/

/-- The text without the characters that begin in one of some spans; it stands from an offset on. -/
def Text.without (gone : List Span) (offset : Nat) : Text → Text
  | [] => []
  | c :: cs =>
    (if gone.any fun s => s.start ≤ offset && offset < s.stop then [] else [c])
      ++ without gone (offset + c.utf8Size) cs

/-- A span stays when it keeps clear of the spans that go. -/
def Span.Stays (gone : List Span) (d : Span) : Prop :=
  ∀ s ∈ gone, d.stop ≤ s.start ∨ s.stop ≤ d.start

instance (gone : List Span) (d : Span) : Decidable (d.Stays gone) :=
  inferInstanceAs (Decidable (∀ s ∈ gone, _))

/-- Texts stand in a text, one behind the other. -/
def InOrder : List Text → Text → Prop
  | [], _ => True
  | t :: ts, text => ∃ before after, text = before ++ (t ++ after) ∧ InOrder ts after

section Left

variable {gone : List Span} {source out t u : Text} {ts : List Text} {n : Nat}
  {splices : List Splice}

theorem InOrder.append_left (h : InOrder ts t) (u : Text) : InOrder ts (u ++ t) := by
  cases ts with
  | nil => trivial
  | cons s ts =>
    obtain ⟨before, after, rfl, h⟩ := h
    exact ⟨u ++ before, after, by simp, h⟩

theorem InOrder.cons (h : InOrder ts t) (u : Text) : InOrder (u :: ts) (u ++ t) :=
  ⟨[], t, rfl, h⟩

namespace Text

theorem without_append (gone : List Span) (n : Nat) (t u : Text) :
    without gone n (t ++ u) = without gone n t ++ without gone (n + width t) u := by
  induction t generalizing n with
  | nil => rfl
  | cons c cs ih => simp [without, ih, Nat.add_assoc]

/-- A text that keeps clear of what goes is left as it is. -/
theorem without_of_stays (h : Span.Stays gone ⟨n, n + width t⟩) : without gone n t = t := by
  induction t generalizing n with
  | nil => rfl
  | cons c cs ih =>
    have hpos := c.utf8Size_pos
    have hkept : (gone.any fun s => s.start ≤ n && n < s.stop) = false := by
      refine List.any_eq_false.mpr fun s hs => ?_
      have := h s hs
      simp only [width_cons] at this
      simp only [Bool.and_eq_true, decide_eq_true_eq, not_and]
      omega
    have hrest : Span.Stays gone ⟨n + c.utf8Size, n + c.utf8Size + width cs⟩ := fun s hs => by
      have := h s hs
      simp only [width_cons] at this ⊢
      omega
    rw [without, hkept, ih hrest]
    rfl

/-- Splices that put nothing in leave the text without their spans. -/
theorem spliced_eq_without (h : ∀ s ∈ splices, s.text = []) (n : Nat) (t : Text) :
    spliced splices n t = without (splices.map Splice.span) n t := by
  have htexts : ∀ n, textsAt splices n = [] := fun n => by
    refine List.flatMap_eq_nil_iff.mpr fun s hs => h s ?_
    obtain hs | hs := List.mem_append.mp hs <;> exact (List.mem_filter.mp hs).1
  induction t generalizing n with
  | nil => exact htexts n
  | cons c cs ih =>
    rw [spliced, without, htexts, ih, List.any_map]
    rfl

end Text

end Left

/-! ## §2 Comments -/

namespace Source

/-- True for the pieces that are comments. -/
def Piece.isComment (p : Piece) : Bool := p.kind = .comment || p.kind = .doc

/-- The comments of a source, in their order. -/
def comments (source : Text) : List Span := spansIn Piece.isComment 0 (cut source)

end Source

open Source

/-- What is left of a source: the text without what goes, with the comments that stay in it, one
behind the other. -/
structure Leaves (source out : Text) (gone : List Span) : Prop where
  text : out = Text.without gone 0 source
  comments :
    InOrder (((comments source).filter (Span.Stays gone)).map fun d => d.slice source) out

section Comments

variable {source out x : Text} {l : TokenSequence} {ps : List Piece} {d g : Span} {i : Nat}
  {splices : List Splice} {gone : List Span}

theorem kind_of_isComment {p : Piece} (h : p.isComment = true) :
    p.kind = .comment ∨ p.kind = .doc := by
  simpa [Piece.isComment] using h

/-- The spans of pieces that stay are left, one behind the other. -/
theorem inOrder_spansIn (gone : List Span) (f : Piece → Bool)
    (hsource : source = x ++ ps.flatMap Piece.text) :
    InOrder (((spansIn f (Text.width x) ps).filter (Span.Stays gone)).map fun d => d.slice source)
      (Text.without gone (Text.width x) (ps.flatMap Piece.text)) := by
  induction ps generalizing x with
  | nil => trivial
  | cons p ps ih =>
    have hrest := ih (x := x ++ p.text) (by rw [hsource]; simp)
    rw [Text.width_append] at hrest
    rw [spansIn, List.filter_append, List.map_append, List.flatMap_cons, Text.without_append]
    by_cases hp : f p = true ∧ Span.Stays gone ⟨Text.width x, Text.width x + Text.width p.text⟩
    · have hslice : Span.slice ⟨Text.width x, Text.width x + Text.width p.text⟩ source = p.text := by
        rw [hsource, List.flatMap_cons]
        exact Text.slice_middle x p.text _
      rw [if_pos hp.1, List.filter_cons_of_pos (by simpa using hp.2), List.filter_nil,
        List.map_singleton, hslice, Text.without_of_stays hp.2]
      exact hrest.cons p.text
    · have hnone : (if f p = true then [(⟨Text.width x, Text.width x + Text.width p.text⟩ : Span)]
          else []).filter (Span.Stays gone) = [] := by
        split
        · rename_i hf
          rw [List.filter_cons_of_neg (by simpa using fun h => hp ⟨hf, h⟩), List.filter_nil]
        · rfl
      rw [hnone]
      exact hrest.append_left _

/-- What splices leave of a source that put nothing in. -/
theorem leaves_of_apply (hfits : ∀ s ∈ splices, s.span.Fits source)
    (htext : ∀ s ∈ splices, s.text = []) (h : apply source splices = .ok out) :
    Leaves source out (splices.map Splice.span) := by
  have hout : out = Text.without (splices.map Splice.span) 0 source :=
    (eq_spliced_of_apply hfits h).trans (Text.spliced_eq_without htext 0 source)
  refine ⟨hout, ?_⟩
  have hleft := inOrder_spansIn (splices.map Splice.span) Piece.isComment (x := [])
    (cut_flatten source).symm
  rw [Text.width_nil, cut_flatten, ← hout] at hleft
  exact hleft

/-- A comment keeps clear of the tokens. -/
theorem comment_apart (hl : tokenize source = .ok l) (hd : d ∈ comments source) {t : Token}
    (ht : l.tokens[i]? = some t) : d.stop ≤ t.span.start ∨ t.span.stop ≤ d.start := by
  refine apart_of_mem_spansIn hl hd (fun p kind hp => ?_) ht
  obtain hk | hk := kind_of_isComment hp <;> rw [hk] <;> exact PieceKind.noConfusion

theorem comment_lt (hd : d ∈ comments source) : d.start < d.stop := by
  refine lt_of_mem_spansIn hd fun p hp => ?_
  obtain hk | hk := kind_of_isComment hp <;> rw [hk] <;> exact PieceKind.noConfusion

/-- A comment begins with a character that is no blank. It ends with a slash, or with its line. -/
theorem exists_comment (hd : d ∈ comments source) :
    ∃ (x y : Text) (c : Char) (body : Text), source = x ++ (c :: body ++ y) ∧
      d.start = Text.width x ∧ d.stop = Text.width (x ++ c :: body) ∧ isAsciiBlank c = false ∧
      ((∃ b, body = b ++ ['/']) ∨ EndsLine y) := by
  obtain ⟨A, p, R, hcut, hp, rfl⟩ := exists_of_mem_spansIn hd
  have hkind := kind_of_isComment hp
  have hmarkup : p.kind ≠ .markup := by
    obtain hk | hk := hkind <;> rw [hk] <;> exact PieceKind.noConfusion
  have hcode := cut_suffix_of_ne_markup hcut hmarkup
  cases h : (p :: R).flatMap Piece.text with
  | nil =>
    rw [h] at hcode
    simp [cutCode] at hcode
  | cons c cs =>
    rw [h, cutCode_cons] at hcode
    obtain ⟨rfl, -⟩ := List.cons.inj hcode
    have hsource : source = A.flatMap Piece.text ++ (c :: cs.take (measure c cs).2 ++
        cs.drop (measure c cs).2) := by
      conv => lhs; rw [source_eq hcut, List.flatMap_append, h]
      simp
    refine ⟨_, _, c, _, hsource, by simp [Reading.extent], by simp [Reading.extent], ?_, ?_⟩
    · obtain ⟨rfl, -⟩ | ⟨rfl, -⟩ | ⟨rfl, -⟩ := measure_of_comment hkind <;> rfl
    · obtain ⟨-, -, hn⟩ | ⟨-, -, hn⟩ | ⟨-, hhead, k, hk, hn⟩ := measure_of_comment hkind
      · rw [hn]
        exact .inr (line_spec cs).2.2
      · rw [hn]
        exact .inr (line_spec cs).2.2
      · obtain ⟨inner, rfl⟩ := List.head?_eq_some_iff.mp hhead
        obtain ⟨b, hb, -⟩ := block_spec hk
        refine .inl ⟨'*' :: (b ++ ['*']), ?_⟩
        rw [hn, List.take_succ_cons, show inner.take k = b ++ "*/" from hb]
        simp

/-- What is taken along with a construct that begins with a hash keeps clear of comments. -/
theorem takeOut_apart (hd : d ∈ comments source) (hg : g.Framed source)
    (hhash : ∃ u w : Text, source = u ++ '#' :: w ∧ g.start = Text.width u)
    (h : d.stop ≤ g.start ∨ g.stop ≤ d.start) :
    d.stop ≤ (Edit.takeOut source g).span.start ∨ (Edit.takeOut source g).span.stop ≤ d.start := by
  obtain ⟨x, y, c, body, hsource, hstart, hstop, hc, hend⟩ := exists_comment hd
  obtain h | h := h
  · left
    obtain ⟨u, w, hsource', hgstart⟩ := hhash
    have hsplit : (x ++ c :: body) ++ y = u ++ '#' :: w := by rw [← hsource', hsource]; simp
    obtain ⟨z, rfl, rfl⟩ := Edit.exists_between hsplit (by omega)
    rw [hsource', hstop]
    obtain ⟨b, rfl⟩ | hline := hend
    · have := Edit.char_le_takeOut_start (x := x ++ c :: b) (c := '/') (z := z) (y := '#' :: w) rfl
        (b := g) (by rw [hgstart]; simp)
      simpa using this
    · -- what ends the line stands before the construct
      obtain ⟨e, z, rfl, he⟩ : ∃ e z', z = e :: z' ∧ isIndent e = false := by
        cases z with
        | nil => obtain h | ⟨_, h⟩ | ⟨_, h⟩ := hline <;> simp at h
        | cons e z =>
          refine ⟨e, z, rfl, ?_⟩
          obtain h | ⟨_, h⟩ | ⟨_, h⟩ := hline
          · simp at h
          · rw [(List.cons.inj h).1]
            rfl
          · rw [(List.cons.inj h).1]
            rfl
      have := Edit.char_le_takeOut_start (x := x ++ c :: body) (z := z) (y := '#' :: w) he (b := g)
        hgstart
      have hle : Text.width (x ++ c :: body) ≤ Text.width (x ++ c :: body ++ [e]) := by
        rw [Text.width_append (x ++ c :: body)]
        omega
      simpa using hle.trans this
  · right
    have hpos := c.utf8Size_pos
    have hfirst : Span.Framed source ⟨d.start, d.start + c.utf8Size⟩ := by
      refine ⟨by dsimp only; omega, ⟨x, body ++ y, c, by simpa using hsource, hstart, hc⟩,
        ⟨x, body ++ y, c, by simpa using hsource, by simp [hstart], hc⟩⟩
    have := Edit.takeOut_stop_le hg hfirst
    exact this h

end Comments

/-! ## §3 Splices that put nothing in -/

theorem text_of_mem_dropBeforeKept {items : List (Span × Bool)} {s : Splice}
    (h : s ∈ Edit.dropBeforeKept items) : s.text = [] := by
  fun_induction Edit.dropBeforeKept items <;> grind [Splice.text]

theorem text_takeOut (source : Text) (g : Span) : (Edit.takeOut source g).text = [] := by
  unfold Edit.takeOut
  grind [Splice.text]

/-! ## §4 Chained calls -/

namespace FluentChain

open TokenSequence

/-- The parentheses of a call: what follows its name, from the first token on. -/
def Call.parens (l : TokenSequence) (c : Call) : Span :=
  ⟨((l.tokens.find? fun t => c.nameSpan.stop ≤ t.span.start).map (·.span.start)).getD c.stop, c.stop⟩

/-- A place outside the parentheses of the calls that lose a link to one of the targets. -/
def Outside (l : TokenSequence) (t : Test) (targets : List Target) (d : Span) : Prop :=
  ∀ c ∈ t.linkCalls, (marks targets c).any id = true → (c.parens l).contains d = false

instance (l : TokenSequence) (t : Test) (targets : List Target) (d : Span) :
    Decidable (Outside l t targets d) :=
  inferInstanceAs (Decidable (∀ c ∈ t.linkCalls, _))

/-- A place between what stands before a call and its opening parenthesis, where the call loses all
its links. -/
def Between (l : TokenSequence) (t : Test) (targets : List Target) (d : Span) : Prop :=
  ∃ c ∈ t.linkCalls, allMarked targets c = true ∧ c.gap.start ≤ d.start ∧ d.stop ≤ (c.parens l).start

instance (l : TokenSequence) (t : Test) (targets : List Target) (d : Span) :
    Decidable (Between l t targets d) :=
  inferInstanceAs (Decidable (∃ c ∈ t.linkCalls, _))

section Calls

variable {source out : Text} {l : TokenSequence} {imports : Imports} {file : File} {t : Test}
  {targets : List Target} {i close : Nat} {d : Span}

/-- The parentheses of a call begin with the second token after its arrow. -/
theorem parens_eq (hl : tokenize source = .ok l) (imports : Imports) (close : Nat) {opener : Token}
    (hopener : l.tokens[i + 2]? = some opener) :
    (callOf l source imports i close).parens l = ⟨opener.span.start, l.stopAt close⟩ := by
  have hsize : i + 2 < l.tokens.size := (Array.getElem?_eq_some_iff.mp hopener).1
  have hname := Array.getElem?_eq_getElem (show i + 1 < l.tokens.size by omega)
  have hspan : (callOf l source imports i close).nameSpan = l.tokens[i + 1].span := by
    simp [callOf, hname]
  have hfind : l.tokens.find? (fun t => l.tokens[i + 1].span.stop ≤ t.span.start) = some opener := by
    refine Array.find?_eq_some_iff_getElem.mpr ⟨?_, i + 2, hsize, ?_, fun j hj => ?_⟩
    · exact decide_eq_true (stop_le_start hl hname hopener (Nat.lt_succ_self _))
    · exact (Array.getElem?_eq_some_iff.mp hopener).2
    · have hj' := Array.getElem?_eq_getElem (show j < l.tokens.size by omega)
      have hlt : l.tokens[j].span.start < l.tokens[i + 1].span.stop := by
        have := token_lt hl hname
        obtain rfl | hlt := Nat.eq_or_lt_of_le (Nat.le_of_lt_succ hj)
        · exact this
        · have := start_lt hl hj' hname hlt
          omega
      simpa using hlt
  rw [Call.parens, hspan, hfind]
  rfl

/-- A call goes from the token before its arrow to its closing parenthesis. -/
theorem exists_bounds (hl : tokenize source = .ok l) (imports : Imports) (hi : 0 < i)
    (h : IsCall l i close) :
    ∃ p o q : Token, l.tokens[i - 1]? = some p ∧ l.tokens[i + 2]? = some o ∧
      l.tokens[close]? = some q ∧ p.span.stop ≤ o.span.start ∧ o.span.stop ≤ q.span.start ∧
      (callOf l source imports i close).gap.start = p.span.stop ∧
      (callOf l source imports i close).stop = q.span.stop ∧
      (callOf l source imports i close).parens l = ⟨o.span.start, q.span.stop⟩ := by
  have hn := nested_of_tokenize hl
  have hlt := h.lt hn
  have hsize := hn.lt_size h.partner
  have hprev := Array.getElem?_eq_getElem (show i - 1 < l.tokens.size by omega)
  have hopener := Array.getElem?_eq_getElem (show i + 2 < l.tokens.size by omega)
  have hclose := Array.getElem?_eq_getElem hsize
  refine ⟨_, _, _, hprev, hopener, hclose, stop_le_start hl hprev hopener (by omega),
    stop_le_start hl hopener hclose (by omega), ?_, stopAt_eq hclose, ?_⟩
  · simp only [callOf, if_neg (Nat.ne_of_gt hi)]
    exact stopAt_eq hprev
  · rw [parens_eq hl imports close hopener, stopAt_eq hclose]

/-- The calls that declare links are calls of the tokens of the source. -/
theorem exists_callOf (hread : File.read source = .ok file) (ht : t ∈ file.tests) :
    ∃ l, tokenize source = .ok l ∧ ∀ c ∈ t.linkCalls, ∃ i close, 0 < i ∧ IsCall l i close ∧
      c = callOf l source file.imports i close := by
  obtain ⟨n, hget⟩ := List.getElem?_of_mem ht
  obtain ⟨l, o, c, keyword, hsited⟩ := exists_sited hread hget
  exact ⟨l, hsited.read, fun c hc => hsited.exists_callOf hc⟩

/-- A comment outside the parentheses of a call keeps clear of what goes for the call, unless the
call goes as a whole and the comment stands before its opening parenthesis. -/
theorem stays_removeFromCall (hl : tokenize source = .ok l) (hi : 0 < i) (h : IsCall l i close)
    (hd : d ∈ comments source)
    (houtside : (marks targets (callOf l source imports i close)).any id = true →
      ((callOf l source imports i close).parens l).contains d = false)
    (hbetween : allMarked targets (callOf l source imports i close) = true →
      ¬ ((callOf l source imports i close).gap.start ≤ d.start ∧
        d.stop ≤ ((callOf l source imports i close).parens l).start)) :
    d.Stays ((removeFromCall targets (callOf l source imports i close)).map Splice.span) := by
  have hn := nested_of_tokenize hl
  obtain ⟨p, o, q, hp, ho, hq, hpo, hoq, hgap, hstop, hparens⟩ := exists_bounds hl imports hi h
  rw [hparens] at houtside hbetween
  rw [hgap] at hbetween
  dsimp only [Span.contains] at houtside hbetween
  simp only [Bool.and_eq_false_iff, decide_eq_false_iff_not] at houtside
  have hltp := token_lt hl hp
  have hlto := token_lt hl ho
  have hltq := token_lt hl hq
  -- a comment stands before, between or after the three tokens
  have hatp := comment_apart hl hd hp
  have hato := comment_apart hl hd ho
  have hatq := comment_apart hl hd hq
  rw [removeFromCall]
  split
  · rename_i hall
    have hout := houtside (Bool.and_eq_true_iff.mp hall).1
    have hno := hbetween hall
    intro s hs
    obtain rfl := List.mem_singleton.mp hs
    dsimp only [Splice.span]
    omega
  · split
    · rename_i hany
      have hout := houtside hany
      have hruns := runs_arguments source hn h.partner
      have hrowed : Rowed source o.span.stop q.span.start
          (Edit.dropItems ((callOf l source imports i close).arguments.map Argument.span)
            (marks targets (callOf l source imports i close))) := by
        refine (Edit.rowed_dropItems _ (fun s hs => hruns.fits hl hs) (fun s hs => ?_)
          (hruns.order hl) fun s hs => ?_).1 <;>
          obtain ⟨f, t, hcovers, hf, ht⟩ := hruns.mem hs
        · exact hcovers.lt hl
        · exact ⟨(Covers.token ho).stop_le_start hl hcovers (by omega),
            hcovers.stop_le_start hl (.token hq) ht⟩
      intro s hs
      obtain ⟨a, ha, rfl⟩ := List.mem_map.mp hs
      have := hrowed.within a ha
      omega
    · intro s hs
      cases hs

/-- The comments outside the parentheses of calls that lose links stay, except those before the
opening parenthesis of a call that goes as a whole. -/
theorem stays_removeSplices_iff (hread : File.read source = .ok file) (ht : t ∈ file.tests)
    (hl : tokenize source = .ok l) (hd : d ∈ comments source) (h : Outside l t targets d) :
    d.Stays ((removeSplices t targets).map Splice.span) ↔ ¬ Between l t targets d := by
  obtain ⟨l', hl', hcalls⟩ := exists_callOf hread ht
  obtain rfl : l' = l := Except.ok.inj (hl'.symm.trans hl)
  constructor
  · rintro hstays ⟨c, hc, hall, hstart, hstop⟩
    have hmem : (⟨c.gap.start, c.stop⟩ : Span) ∈ (removeSplices t targets).map Splice.span := by
      refine List.mem_map.mpr ⟨.delete ⟨c.gap.start, c.stop⟩, List.mem_flatMap.mpr ⟨c, hc, ?_⟩, rfl⟩
      rw [removeFromCall, if_pos hall]
      exact List.mem_singleton_self _
    have hlt := comment_lt hd
    obtain ⟨i, close, hi, hcall, rfl⟩ := hcalls c hc
    obtain ⟨p, o, q, -, ho, hq, -, hoq, -, hcstop, hparens⟩ := exists_bounds hl file.imports hi hcall
    have hlto := token_lt hl ho
    have hltq := token_lt hl hq
    rw [hparens] at hstop
    rw [hcstop] at hmem
    have := hstays _ hmem
    dsimp only at hstop this
    omega
  · intro hbetween s hs
    obtain ⟨a, ha, rfl⟩ := List.mem_map.mp hs
    obtain ⟨c, hc, ha⟩ := List.mem_flatMap.mp ha
    obtain ⟨i, close, hi, hcall, rfl⟩ := hcalls c hc
    exact stays_removeFromCall hl hi hcall hd (h _ hc)
      (fun hall hin => hbetween ⟨_, hc, hall, hin⟩) _ (List.mem_map_of_mem ha)

theorem text_of_mem_removeFromCall {c : Call} {s : Splice} (h : s ∈ removeFromCall targets c) :
    s.text = [] := by
  rw [removeFromCall] at h
  split at h
  · obtain rfl := List.mem_singleton.mp h
    rfl
  · split at h
    · exact text_of_mem_dropBeforeKept h
    · cases h

/-- A removal that succeeds finds the test and reads the targets. -/
theorem of_remove {r : TestCase} {names : List Text} (h : remove source r names = .ok out) :
    ∃ file t targets, locate source r = .ok (file, t) ∧ parseTargets names = .ok targets ∧
      applyEdit source (removeSplices t targets) = .ok out := by
  cases hlocate : locate source r with
  | error e => simp [remove, hlocate, bind, Except.bind] at h
  | ok found =>
    obtain ⟨file, t⟩ := found
    cases hnames : parseTargets names with
    | error e => simp [remove, hlocate, hnames, bind, Except.bind] at h
    | ok targets =>
      rw [remove_eq hlocate hnames] at h
      exact ⟨file, t, targets, rfl, rfl, h⟩

/-- What is left of a source when links are removed from a chain. -/
theorem leaves_remove (hread : File.read source = .ok file) (ht : t ∈ file.tests)
    (h : applyEdit source (removeSplices t targets) = .ok out) :
    Leaves source out ((removeSplices t targets).map Splice.span) := by
  refine leaves_of_apply (apart_removeSplices hread ht targets).fits (fun s hs => ?_)
    (apply_of_applyEdit h)
  obtain ⟨c, -, hs⟩ := List.mem_flatMap.mp hs
  exact text_of_mem_removeFromCall hs

/-- A source becomes `out` when links are removed from its first test, and outside the parentheses of
the calls that lose a link it has the comment `text`. It is said whether it stands between what is
before a call that goes and its opening parenthesis. -/
def Beside (source : Text) (names : List Text) (out text : Text) (between : Bool) : Prop :=
  ∃ r l file t targets d, remove source r names = .ok out ∧ tokenize source = .ok l ∧
    locate source r = .ok (file, t) ∧ parseTargets names = .ok targets ∧ d ∈ comments source ∧
    d.slice source = text ∧ Outside l t targets d ∧ decide (Between l t targets d) = between

theorem beside_of_sorted {text : Text} {names : List Text} {between : Bool} (splices : List Splice)
    (h : ((firstCase source).bind fun r => (locate source r).toOption.bind fun found =>
      (tokenize source).toOption.bind fun l => (parseTargets names).toOption.filter fun targets =>
        removeSplices found.2 targets = splices && (comments source).any fun d =>
          d.slice source = text && (Outside l found.2 targets d &&
            decide (Between l found.2 targets d) == between)).isSome = true)
    (hsorted : splices.Pairwise fun a b => Splice.le a b = true)
    (hout : applyInOrder source splices = .ok out) : Beside source names out text between := by
  obtain ⟨targets, h⟩ := Option.isSome_iff_exists.mp h
  obtain ⟨r, -, h⟩ := Option.bind_eq_some_iff.mp h
  obtain ⟨⟨file, t⟩, hlocate, h⟩ := Option.bind_eq_some_iff.mp h
  obtain ⟨l, hl, h⟩ := Option.bind_eq_some_iff.mp h
  obtain ⟨hnames, h⟩ := Option.filter_eq_some_iff.mp h
  obtain ⟨hsplices, h⟩ := Bool.and_eq_true_iff.mp h
  obtain ⟨d, hd, h⟩ := List.any_eq_true.mp h
  obtain ⟨htext, h⟩ := Bool.and_eq_true_iff.mp h
  obtain ⟨houtside, hbetween⟩ := Bool.and_eq_true_iff.mp h
  have hlocate := eq_ok_of_toOption hlocate
  have hnames := eq_ok_of_toOption hnames
  refine ⟨r, l, file, t, targets, d, ?_, eq_ok_of_toOption hl, hlocate, hnames, hd,
    of_decide_eq_true htext, of_decide_eq_true houtside, beq_iff_eq.mp hbetween⟩
  rw [remove_eq hlocate hnames, of_decide_eq_true hsplices, applyEdit_of_sorted hsorted, hout]
  rfl

end Calls

end FluentChain

/-! ## §5 Attribute groups -/

namespace AttributeList

open TokenSequence

/-- The splices that take links out of the groups of a test. -/
def removeSplices (source : Text) (imports : Imports) (m : Method) (targets : List Target) :
    List Splice :=
  (groupsWithLinks m).flatMap (removeFromGroup source imports targets)

/-- A place outside the attribute groups that lose a link to one of the targets. -/
def Outside (imports : Imports) (m : Method) (targets : List Target) (d : Span) : Prop :=
  ∀ g ∈ groupsWithLinks m, (marks imports targets g).any id = true → g.span.contains d = false

instance (imports : Imports) (m : Method) (targets : List Target) (d : Span) :
    Decidable (Outside imports m targets d) :=
  inferInstanceAs (Decidable (∀ g ∈ groupsWithLinks m, _))

section Groups

variable {source out : Text} {l : TokenSequence} {imports : Imports} {m : Method}
  {g : AttributeGroup} {targets : List Target} {d : Span} {o c : Nat}

/-- A group begins with a hash. -/
theorem hash_of_groupAt (hl : tokenize source = .ok l) (h : GroupAt l source g o c) :
    ∃ u w : Text, source = u ++ '#' :: w ∧ g.span.start = Text.width u := by
  obtain ⟨t, ht, hstart⟩ := h.covers.first
  obtain ⟨u, w, rfl, hu, -⟩ := exists_token_parts hl ht
  have hkind : t.kind = .attrOpen := by
    have := h.kind
    rw [kindAt, ht] at this
    exact Option.some.inj this
  have htext : t.text = "#[" := by
    rw [text_of_isBracket hl ht (by rw [hkind]; rfl), hkind]
    rfl
  exact ⟨u, '[' :: w, by rw [htext]; rfl, by rw [← hstart, hu]⟩

/-- A comment outside a group stands before it or after it. -/
theorem comment_apart_group (hl : tokenize source = .ok l) (h : GroupAt l source g o c)
    (hd : d ∈ comments source) (hout : g.span.contains d = false) :
    d.stop ≤ g.span.start ∨ g.span.stop ≤ d.start := by
  obtain ⟨t, ht, hstart⟩ := h.covers.first
  obtain ⟨u, hu, hstop⟩ := h.covers.last
  have := comment_apart hl hd ht
  have := comment_apart hl hd hu
  have := token_lt hl ht
  have := token_lt hl hu
  simp only [Span.contains, Bool.and_eq_false_iff, decide_eq_false_iff_not] at hout
  omega

/-- The comments outside the groups that lose links stay. -/
theorem stays_removeSplices (hl : tokenize source = .ok l) (hm : MethodAt l source m)
    (hd : d ∈ comments source) (h : Outside imports m targets d) :
    d.Stays ((removeSplices source imports m targets).map Splice.span) := by
  intro s hs
  obtain ⟨a, ha, rfl⟩ := List.mem_map.mp hs
  obtain ⟨g, hg, ha⟩ := List.mem_flatMap.mp ha
  obtain ⟨o, c, hat⟩ := hm.groups g (List.mem_filter.mp hg).1
  cases hany : (marks imports targets g).any id with
  | false => simp [removeFromGroup, hany] at ha
  | true =>
    have hapart := comment_apart_group hl hat hd (h g hg hany)
    by_cases hwhole : Whole imports targets g
    · rw [removeFromGroup_of_whole hwhole] at ha
      obtain rfl := List.mem_singleton.mp ha
      exact takeOut_apart hd (hat.framed hl) (hash_of_groupAt hl hat) hapart
    · have := (rowed_removeFromGroup imports targets hl hat hwhole).1.within a ha
      omega

theorem text_of_mem_removeFromGroup {s : Splice}
    (h : s ∈ removeFromGroup source imports targets g) : s.text = [] := by
  unfold removeFromGroup at h
  dsimp only at h
  split at h
  · split at h
    · obtain rfl := List.mem_singleton.mp h
      exact text_takeOut source g.span
    · exact text_of_mem_dropBeforeKept h
  · cases h

/-- A removal that succeeds finds the test and reads the targets. -/
theorem of_remove {r : TestCase} {names : List Text} (h : remove source r names = .ok out) :
    ∃ file t targets, locate source r = .ok (file, t) ∧ parseTargets names = .ok targets ∧
      applyEdit source (removeSplices source file.imports t.method targets) = .ok out := by
  cases hlocate : locate source r with
  | error e => simp [remove, hlocate, bind, Except.bind] at h
  | ok found =>
    obtain ⟨file, t⟩ := found
    cases hnames : parseTargets names with
    | error e => simp [remove, hlocate, hnames, bind, Except.bind] at h
    | ok targets =>
      rw [remove_eq hlocate hnames] at h
      exact ⟨file, t, targets, rfl, rfl, h⟩

/-- What is left of a source when links are removed from attribute groups. -/
theorem leaves_remove (hl : tokenize source = .ok l) (hm : MethodAt l source m)
    (h : applyEdit source (removeSplices source imports m targets) = .ok out) :
    Leaves source out ((removeSplices source imports m targets).map Splice.span) := by
  refine leaves_of_apply (fun s hs => ?_) (fun s hs => ?_) (apply_of_applyEdit h) <;>
    obtain ⟨g, hg, hs⟩ := List.mem_flatMap.mp hs
  · obtain ⟨o, c, hat⟩ := hm.groups g (List.mem_filter.mp hg).1
    exact ((removeFromGroup_holds hl hat).1 s hs).1
  · exact text_of_mem_removeFromGroup hs

/-- A source becomes `out` when links are removed from its first test, and outside the groups that lose
a link it has the comment `text`. -/
def Beside (source : Text) (names : List Text) (out text : Text) : Prop :=
  ∃ r file t targets d, remove source r names = .ok out ∧ locate source r = .ok (file, t) ∧
    parseTargets names = .ok targets ∧ d ∈ comments source ∧ d.slice source = text ∧
    Outside file.imports t.method targets d

theorem beside_of_sorted {text : Text} {names : List Text} (splices : List Splice)
    (h : ((firstTest source).bind fun t => (locate source t.case).toOption.bind fun found =>
      (parseTargets names).toOption.filter fun targets =>
        removeSplices source found.1.imports found.2.method targets = splices &&
          (comments source).any fun d => d.slice source = text &&
            Outside found.1.imports found.2.method targets d).isSome = true)
    (hsorted : splices.Pairwise fun a b => Splice.le a b = true)
    (hout : applyInOrder source splices = .ok out) : Beside source names out text := by
  obtain ⟨targets, h⟩ := Option.isSome_iff_exists.mp h
  obtain ⟨t, -, h⟩ := Option.bind_eq_some_iff.mp h
  obtain ⟨⟨file, t⟩, hlocate, h⟩ := Option.bind_eq_some_iff.mp h
  obtain ⟨hnames, h⟩ := Option.filter_eq_some_iff.mp h
  obtain ⟨hsplices, h⟩ := Bool.and_eq_true_iff.mp h
  obtain ⟨d, hd, h⟩ := List.any_eq_true.mp h
  obtain ⟨htext, houtside⟩ := Bool.and_eq_true_iff.mp h
  have hlocate := eq_ok_of_toOption hlocate
  have hnames := eq_ok_of_toOption hnames
  have hsplices : (groupsWithLinks t.method).flatMap (removeFromGroup source file.imports targets) =
    splices := of_decide_eq_true hsplices
  refine ⟨_, file, t, targets, d, ?_, hlocate, hnames, hd, of_decide_eq_true htext,
    of_decide_eq_true houtside⟩
  rw [remove_eq hlocate hnames, hsplices, applyEdit_of_sorted hsorted, hout]
  rfl

end Groups

end AttributeList

/-! ## §6 Both -/

/-- Links are removed from a text by taking spans out of it. Comments that keep clear of these still
stand in the text that is left, one behind the other. Of the comments outside the brackets of what
loses a link, those are all of them in attribute lists; in a chain they are all but those that stand
between what is before a call and its opening parenthesis, where the call goes as a whole. -/
theorem remove_comments (source : Text) :
    (∀ r names out, FluentChain.remove source r names = .ok out →
      ∃ l file t targets, tokenize source = .ok l ∧ FluentChain.locate source r = .ok (file, t) ∧
        parseTargets names = .ok targets ∧
        Leaves source out ((FluentChain.removeSplices t targets).map Splice.span) ∧
        ∀ d ∈ comments source, FluentChain.Outside l t targets d →
          (d.Stays ((FluentChain.removeSplices t targets).map Splice.span) ↔
            ¬ FluentChain.Between l t targets d)) ∧
    ∀ r names out, AttributeList.remove source r names = .ok out →
      ∃ file t targets, AttributeList.locate source r = .ok (file, t) ∧
        parseTargets names = .ok targets ∧
        Leaves source out
          ((AttributeList.removeSplices source file.imports t.method targets).map Splice.span) ∧
        ∀ d ∈ comments source, AttributeList.Outside file.imports t.method targets d →
          d.Stays
            ((AttributeList.removeSplices source file.imports t.method targets).map Splice.span) := by
  constructor
  · intro r names out h
    obtain ⟨file, t, targets, hlocate, hnames, happly⟩ := FluentChain.of_remove h
    obtain ⟨hread, ht⟩ := FluentChain.of_locate hlocate
    obtain ⟨l, hl, -⟩ := FluentChain.exists_callOf hread ht
    exact ⟨l, file, t, targets, hl, hlocate, hnames, FluentChain.leaves_remove hread ht happly,
      fun d hd hout => FluentChain.stays_removeSplices_iff hread ht hl hd hout⟩
  · intro r names out h
    obtain ⟨file, t, targets, hlocate, hnames, happly⟩ := AttributeList.of_remove h
    obtain ⟨l, hl, hm⟩ := AttributeList.of_locate hlocate
    exact ⟨file, t, targets, hlocate, hnames, AttributeList.leaves_remove hl hm happly,
      fun d hd hout => AttributeList.stays_removeSplices hl hm hd hout⟩

/-- A chain with comments before a call that stays and behind it. -/
def commentedChain : Text := "<?php\ntest('a', fn() => 1) // one\n  ->links('A', 'B') /* two */;\n"

/-- A method with comments before a group that goes and behind it. -/
def commentedMethod : Text :=
  "<?php\nclass T \x7b\n    // one\n    #[Links(A::class)] // two\n" ++
    "    public function test_x() \x7b\x7d\n\x7d\n"

/-- Comments beside what loses a link stay. -/
theorem remove_comments_sample :
    (∃ r out l file t targets d, FluentChain.remove commentedChain r ["A"] = .ok out ∧
      tokenize commentedChain = .ok l ∧ FluentChain.locate commentedChain r = .ok (file, t) ∧
      parseTargets ["A"] = .ok targets ∧ d ∈ comments commentedChain ∧
      d.slice commentedChain = "// one" ∧ FluentChain.Outside l t targets d ∧
      Leaves commentedChain out ((FluentChain.removeSplices t targets).map Splice.span) ∧
      d.Stays ((FluentChain.removeSplices t targets).map Splice.span)) ∧
    ∃ r out file t targets d, AttributeList.remove commentedMethod r ["A"] = .ok out ∧
      AttributeList.locate commentedMethod r = .ok (file, t) ∧ parseTargets ["A"] = .ok targets ∧
      d ∈ comments commentedMethod ∧ d.slice commentedMethod = "// two" ∧
      AttributeList.Outside file.imports t.method targets d ∧
      Leaves commentedMethod out ((AttributeList.removeSplices commentedMethod file.imports t.method
        targets).map Splice.span) ∧
      d.Stays ((AttributeList.removeSplices commentedMethod file.imports t.method targets).map
        Splice.span) := by
  constructor
  · have hbeside : FluentChain.Beside commentedChain ["A"]
        "<?php\ntest('a', fn() => 1) // one\n  ->links('B') /* two */;\n" "// one" false := by
      refine FluentChain.beside_of_sorted [.delete ⟨44, 49⟩] ?_ (by decide)
        (by decide +kernel)
      decide +kernel
    obtain ⟨r, l, file, t, targets, d, hremove, hl, hlocate, hnames, hd, htext, houtside, hbetween⟩ :=
      hbeside
    obtain ⟨l', file', t', targets', hl', hlocate', hnames', hleaves, hstays⟩ :=
      (remove_comments commentedChain).1 r ["A"] _ hremove
    obtain rfl := Except.ok.inj (hl'.symm.trans hl)
    obtain ⟨rfl, rfl⟩ := Prod.mk.inj (Except.ok.inj (hlocate'.symm.trans hlocate))
    obtain rfl := Except.ok.inj (hnames'.symm.trans hnames)
    exact ⟨r, _, l', file', t', targets', d, hremove, hl, hlocate, hnames, hd, htext, houtside,
      hleaves, (hstays d hd houtside).mpr (of_decide_eq_false hbetween)⟩
  · have hbeside : AttributeList.Beside commentedMethod ["A"]
        ("<?php\nclass T \x7b\n    // one\n    // two\n" ++
          "    public function test_x() \x7b\x7d\n\x7d\n") "// two" := by
      refine AttributeList.beside_of_sorted [.delete ⟨31, 50⟩] ?_ (by decide)
        (by decide +kernel)
      decide +kernel
    obtain ⟨r, file, t, targets, d, hremove, hlocate, hnames, hd, htext, houtside⟩ := hbeside
    obtain ⟨file', t', targets', hlocate', hnames', hleaves, hstays⟩ :=
      (remove_comments commentedMethod).2 r ["A"] _ hremove
    obtain ⟨rfl, rfl⟩ := Prod.mk.inj (Except.ok.inj (hlocate'.symm.trans hlocate))
    obtain rfl := Except.ok.inj (hnames'.symm.trans hnames)
    exact ⟨r, _, file', t', targets', d, hremove, hlocate, hnames, hd, htext, houtside, hleaves,
      hstays d hd houtside⟩

/-- A comment before an arrow goes with its call. -/
theorem remove_loses_comment :
    FluentChain.Beside "<?php\ntest('a', fn() => 1) /* keep */ ->links('A');\n" ["A"]
        "<?php\ntest('a', fn() => 1);\n" "/* keep */" true ∧
      ¬ ("/* keep */" : Text) <:+: "<?php\ntest('a', fn() => 1);\n" := by
  refine ⟨FluentChain.beside_of_sorted [.delete ⟨26, 50⟩] ?_ (by decide)
    (by decide +kernel), by decide⟩
  decide +kernel

end Crosslink
