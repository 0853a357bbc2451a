import Crosslink.Proofs.Layouts
import Crosslink.Proofs.Excerpts
import Crosslink.Proofs.Seams
import Crosslink.Source.Member

/-!
# The places of declarations

Every span that is read of a source goes from the start of one of its tokens to the end of the same
or a later one. So it fits the source and is not empty, and two of them stand one after the other
when their tokens do.

* §1 The spans of tokens.
* §2 `Covers`, a span that some tokens take up, and `Runs`, such spans in order.
* §3 The places of arguments, attributes and groups.
* §4 The places of methods.
-/

namespace Crosslink.Source

open TokenSequence

variable {source : Text} {l : TokenSequence} {i j lo hi : Nat} {t u : Token} {s : Span}
  {spans : List Span}

/-! ## §1 Tokens -/

theorem extent_pos_of_token {A R : List Piece} {p : Piece} {kind : TokenKind}
    (hcut : cut source = A ++ p :: R) (hp : p.kind = .token kind) : 0 < Reading.extent [p] := by
  have hne := text_ne_nil_of_cons (cut_suffix_of_ne_markup hcut (by rw [hp]; simp))
  obtain ⟨c, cs, htext⟩ := List.exists_cons_of_ne_nil hne
  have := c.utf8Size_pos
  simp only [Reading.extent, List.flatMap_singleton, htext, Text.width]
  omega

/-- The part of the source that a token is. -/
theorem exists_token_parts (hl : tokenize source = .ok l) (ht : l.tokens[i]? = some t) :
    ∃ x y : Text, source = x ++ (t.text ++ y) ∧ t.span.start = Text.width x ∧
      t.span.stop = Text.width x + Text.width t.text := by
  obtain ⟨A, p, R, hcut, -, htext, -, hstart, hstop⟩ := exists_piece hl ht
  refine ⟨A.flatMap Piece.text, R.flatMap Piece.text, ?_, hstart.symm, ?_⟩
  · conv => lhs; rw [source_eq hcut]
    simp [htext]
  · rw [← hstop, extent_append, extent_cons, htext]
    rfl

/-- A token is what is measured where it begins. -/
theorem exists_measure (hl : tokenize source = .ok l) (ht : l.tokens[i]? = some t) :
    ∃ c cs, (measure c cs).1 = .token t.kind ∧ t.text = c :: cs.take (measure c cs).2 := by
  obtain ⟨A, p, R, hcut, hp, htext, -⟩ := exists_piece hl ht
  have hcode := cut_suffix_of_ne_markup hcut (by rw [hp]; simp)
  rw [← htext]
  cases h : (p :: R).flatMap Piece.text with
  | nil =>
    rw [h] at hcode
    simp [cutCode] at hcode
  | cons c cs =>
    rw [h, cutCode_cons] at hcode
    obtain ⟨rfl, -⟩ := List.cons.inj hcode
    exact ⟨c, cs, hp, rfl⟩

theorem isAsciiBlank_of_measure {c : Char} {cs : Text} {kind : TokenKind}
    (h : (measure c cs).1 = .token kind) : isAsciiBlank c = false := by
  refine Bool.eq_false_iff.mpr fun hblank => ?_
  rw [measure, if_pos hblank] at h
  cases h

theorem token_lt (hl : tokenize source = .ok l) (ht : l.tokens[i]? = some t) :
    t.span.start < t.span.stop := by
  obtain ⟨A, p, R, hcut, hp, -, -, hstart, hstop⟩ := exists_piece hl ht
  have := extent_pos_of_token hcut hp
  rw [← hstart, ← hstop, extent_append]
  omega

theorem token_fits (hl : tokenize source = .ok l) (ht : l.tokens[i]? = some t) :
    t.span.Fits source := by
  obtain ⟨x, y, rfl, hstart, hstop⟩ := exists_token_parts hl ht
  refine ⟨by omega, ?_, ?_⟩
  · exact Text.isBoundary_iff.mpr ⟨x, _, rfl, hstart⟩
  · exact Text.isBoundary_iff.mpr ⟨x ++ t.text, y, by simp, by simpa using hstop⟩

theorem stop_le_start (hl : tokenize source = .ok l) (ht : l.tokens[i]? = some t)
    (hu : l.tokens[j]? = some u) (hij : i < j) : t.span.stop ≤ u.span.start := by
  obtain ⟨A, p, R, hcut, hp, -, rfl, -, hstop⟩ := exists_piece hl ht
  obtain ⟨A', q, R', hcut', -, -, rfl, hstart', -⟩ := exists_piece hl hu
  have hbegins : A ++ [p] <+: A' :=
    prefix_of_count (C := cut source) ⟨R, by rw [hcut]; simp⟩ ⟨q :: R', hcut'.symm⟩ hij
  obtain ⟨S, rfl⟩ := hbegins
  rw [← hstart', ← hstop, extent_append (A ++ [p])]
  omega

theorem start_lt (hl : tokenize source = .ok l) (ht : l.tokens[i]? = some t)
    (hu : l.tokens[j]? = some u) (hij : i < j) : t.span.start < u.span.start := by
  have := token_lt hl ht
  have := stop_le_start hl ht hu hij
  omega

/-! ## §2 Spans that tokens take up -/

/-- The span goes from the start of the token `f` to the end of the token `t`. -/
structure Covers (l : TokenSequence) (s : Span) (f t : Nat) : Prop where
  le : f ≤ t
  first : ∃ u, l.tokens[f]? = some u ∧ u.span.start = s.start
  last : ∃ u, l.tokens[t]? = some u ∧ u.span.stop = s.stop

theorem Covers.token (ht : l.tokens[i]? = some t) : Covers l t.span i i :=
  ⟨Nat.le_refl _, ⟨t, ht, rfl⟩, ⟨t, ht, rfl⟩⟩

theorem stopAt_eq (ht : l.tokens[i]? = some t) : l.stopAt i = t.span.stop := by
  rw [stopAt, ht]
  rfl

/-- The span from the start of one token to the end of another. -/
theorem Covers.of_tokens (hij : i ≤ j) (ht : l.tokens[i]? = some t) (hj : j < l.tokens.size) :
    Covers l ⟨t.span.start, l.stopAt j⟩ i j :=
  ⟨hij, ⟨t, ht, rfl⟩, ⟨l.tokens[j], Array.getElem?_eq_getElem hj,
    (stopAt_eq (Array.getElem?_eq_getElem hj)).symm⟩⟩

theorem Covers.lt (hl : tokenize source = .ok l) (h : Covers l s i j) : s.start < s.stop := by
  obtain ⟨t, ht, hstart⟩ := h.first
  obtain ⟨u, hu, hstop⟩ := h.last
  have := token_lt hl ht
  obtain rfl | hij := Nat.eq_or_lt_of_le h.le
  · obtain rfl := Option.some.inj (ht.symm.trans hu)
    omega
  · have := token_lt hl hu
    have := stop_le_start hl ht hu hij
    omega

theorem Covers.fits (hl : tokenize source = .ok l) (h : Covers l s i j) : s.Fits source := by
  obtain ⟨t, ht, hstart⟩ := h.first
  obtain ⟨u, hu, hstop⟩ := h.last
  exact ⟨Nat.le_of_lt (h.lt hl), hstart ▸ (token_fits hl ht).start, hstop ▸ (token_fits hl hu).stop⟩

theorem Covers.stop_le_start {s' : Span} {i' j' : Nat} (hl : tokenize source = .ok l)
    (h : Covers l s i j) (h' : Covers l s' i' j') (hlt : j < i') : s.stop ≤ s'.start := by
  obtain ⟨t, ht, hstop⟩ := h.last
  obtain ⟨u, hu, hstart⟩ := h'.first
  rw [← hstop, ← hstart]
  exact Source.stop_le_start hl ht hu hlt

/-- A span that the tokens of another hold lies in it. -/
theorem Covers.within {s' : Span} {i' j' : Nat} (hl : tokenize source = .ok l)
    (h : Covers l s i j) (h' : Covers l s' i' j') (hi : i ≤ i') (hj : j' ≤ j) :
    s.start ≤ s'.start ∧ s'.stop ≤ s.stop := by
  obtain ⟨t, ht, hstart⟩ := h.first
  obtain ⟨u, hu, hstop⟩ := h.last
  obtain ⟨t', ht', hstart'⟩ := h'.first
  obtain ⟨u', hu', hstop'⟩ := h'.last
  constructor
  · obtain rfl | hlt := Nat.eq_or_lt_of_le hi
    · obtain rfl := Option.some.inj (ht.symm.trans ht')
      omega
    · have := start_lt hl ht ht' hlt
      omega
  · obtain rfl | hlt := Nat.eq_or_lt_of_le hj
    · obtain rfl := Option.some.inj (hu.symm.trans hu')
      omega
    · have := Source.stop_le_start hl hu' hu hlt
      have := token_lt hl hu
      omega

theorem stopAt_mono (hl : tokenize source = .ok l) (hij : i ≤ j) (hj : j < l.tokens.size) :
    l.stopAt i ≤ l.stopAt j := by
  have ht := Array.getElem?_eq_getElem (Nat.lt_of_le_of_lt hij hj)
  rw [stopAt_eq ht]
  exact ((Covers.of_tokens hij ht hj).within hl (.token ht) (Nat.le_refl i) hij).2

/-- The spans stand one after the other on tokens from the index `lo` up to before the index
`hi`. -/
inductive Runs (l : TokenSequence) (hi : Nat) : Nat → List Span → Prop
  | nil (lo : Nat) : Runs l hi lo []
  | cons {lo f t : Nat} {s : Span} {spans : List Span} (covers : Covers l s f t) (after : lo ≤ f)
      (upto : t < hi) (rest : Runs l hi (t + 1) spans) : Runs l hi lo (s :: spans)

namespace Runs

theorem mono {lo' hi' : Nat} (h : Runs l hi lo spans) (hlo : lo' ≤ lo) (hhi : hi ≤ hi') :
    Runs l hi' lo' spans := by
  induction h generalizing lo' with
  | nil => exact .nil _
  | cons covers after upto rest ih =>
    exact .cons covers (by omega) (by omega) (ih (Nat.le_refl _))

theorem mem (h : Runs l hi lo spans) (hs : s ∈ spans) :
    ∃ f t, Covers l s f t ∧ lo ≤ f ∧ t < hi := by
  induction h with
  | nil => cases hs
  | @cons lo f t _ _ covers after upto rest ih =>
    obtain rfl | hs := List.mem_cons.mp hs
    · exact ⟨f, t, covers, after, upto⟩
    · obtain ⟨f', t', covers', after', upto'⟩ := ih hs
      have := covers.le
      exact ⟨f', t', covers', by omega, upto'⟩

theorem concat (h : Runs l i lo spans) (hs : Covers l s i j) (hj : j < hi) (hlo : lo ≤ i) :
    Runs l hi lo (spans ++ [s]) := by
  induction h with
  | nil => exact .cons hs hlo hj (.nil _)
  | cons covers after upto rest ih =>
    have := hs.le
    exact .cons covers after (by omega) (ih upto)

theorem sublist {spans' : List Span} (h : Runs l hi lo spans) (hsub : spans'.Sublist spans) :
    Runs l hi lo spans' := by
  induction h generalizing spans' with
  | nil =>
    obtain rfl := List.sublist_nil.mp hsub
    exact .nil _
  | @cons lo f t s spans covers after upto rest ih =>
    cases hsub with
    | cons _ hsub =>
      have := covers.le
      exact (ih hsub).mono (by omega) (Nat.le_refl _)
    | cons_cons _ hsub => exact .cons covers after upto (ih hsub)

theorem fits (hl : tokenize source = .ok l) (h : Runs l hi lo spans) (hs : s ∈ spans) :
    s.Fits source := by
  obtain ⟨f, t, covers, -, -⟩ := h.mem hs
  exact covers.fits hl

theorem order (hl : tokenize source = .ok l) (h : Runs l hi lo spans) :
    spans.Pairwise fun a b => a.stop ≤ b.start := by
  induction h with
  | nil => exact .nil
  | cons covers after upto rest ih =>
    refine List.pairwise_cons.mpr ⟨fun s hs => ?_, ih⟩
    obtain ⟨f, t, covers', after', -⟩ := rest.mem hs
    exact covers.stop_le_start hl covers' after'

end Runs

/-! ## §3 Arguments, attributes and groups -/

variable {o c : Nat} {g : AttributeGroup} {a : Attribute} {m : Method}

theorem covers_argument (hij : i ≤ j) (hj : j < l.tokens.size) :
    Covers l (l.argument source i j).span i j := by
  have ht := Array.getElem?_eq_getElem (Nat.lt_of_le_of_lt hij hj)
  have := Covers.of_tokens hij ht hj
  rwa [argument, ht]

theorem runs_slotsFrom (hn : l.Nested) (hc : l.partnerAt o = some c) (open? : Option (Nat × Nat))
    (ho : o < i) (hi : i ≤ c) :
    ∀ lo, (∀ s ∈ open?, lo ≤ s.1 ∧ s.1 ≤ s.2 ∧ s.2 < i) → lo ≤ i →
      Runs l c lo ((l.slotsFrom c open? i).map fun s => (l.argumentIn source s).span) := by
  have hsize := hn.lt_size hc
  fun_induction slotsFrom l c open? i with
  | case1 open? i hi' hcomma ih =>
    intro lo hopen hlo
    have hrest := ih (by omega) hi' (i + 1) (by simp) (Nat.le_refl _)
    cases open? with
    | none => exact hrest.mono (by omega) (Nat.le_refl _)
    | some s =>
      obtain ⟨h₁, h₂, h₃⟩ := hopen s rfl
      exact .cons (covers_argument h₂ (by omega)) h₁ (by omega)
        (hrest.mono (by omega) (Nat.le_refl _))
  | case2 open? i hi' hcomma last ih =>
    intro lo hopen hlo
    have hle : i ≤ last := l.le_lastOf i
    have hlt : last < c := hn.lastOf_lt hc ho hi'
    refine ih (by omega) hlt lo (fun s hs => ?_) (by omega)
    obtain rfl := Option.some.inj hs
    cases open? with
    | none => exact ⟨hlo, hle, Nat.lt_succ_self _⟩
    | some s =>
      obtain ⟨h₁, h₂, h₃⟩ := hopen s rfl
      exact ⟨h₁, by simp only [Option.map_some, Option.getD_some]; omega, Nat.lt_succ_self _⟩
  | case3 open? i hi' =>
    intro lo hopen hlo
    cases open? with
    | none => exact .nil _
    | some s =>
      obtain ⟨h₁, h₂, h₃⟩ := hopen s rfl
      exact .cons (covers_argument h₂ (by omega)) h₁ (by omega) (.nil _)

variable (source) in
/-- The arguments of a list stand in order between its brackets. -/
theorem runs_arguments (hn : l.Nested) (hc : l.partnerAt o = some c) :
    Runs l c (o + 1) ((l.arguments source o).map Argument.span) := by
  rw [arguments_eq, List.map_map]
  obtain hoc | hco := Nat.lt_or_ge o c
  · rw [slots, hc]
    exact runs_slotsFrom hn hc none (Nat.lt_succ_self o) hoc (o + 1) (by simp) (Nat.le_refl _)
  · rw [slots_of_le hc hco]
    exact .nil _

variable (source) in
/-- Where an attribute stands whose name is a token between the brackets of a group. -/
theorem covers_attributeAt (hn : l.Nested) (hc : l.partnerAt o = some c) (ho : o < i) (hi : i < c)
    (ht : l.tokens[i]? = some t) :
    ∃ j, Covers l (AttributeGroup.attributeAt l source i t).1.span i j ∧ j < c ∧
      j < (AttributeGroup.attributeAt l source i t).2 := by
  unfold AttributeGroup.attributeAt
  split
  · rename_i hopen
    dsimp only
    split
    · rename_i p hp
      have hlt : i + 1 < c := by
        refine Nat.lt_of_le_of_ne hi fun heq => ?_
        rw [heq, hn.isKind_last hc (by omega) rfl] at hopen
        cases hopen
      obtain ⟨v, hv, hvp⟩ := partnerAt_eq_some.mp hp
      have hopens : v.kind.opens = true := by
        have hkind := of_decide_eq_true hopen
        rw [kindAt, hv] at hkind
        rw [Option.some.inj hkind]
        rfl
      have hpc := (hn.between hc (by omega) hlt hp).2
      have := hn.lt_partner hv hopens hvp
      exact ⟨p, .of_tokens (by omega) ht (hn.lt_size hp), hpc, by dsimp only; omega⟩
    · exact ⟨i, .token ht, hi, by simp⟩
  · exact ⟨i, .token ht, hi, by simp⟩

/-- The attributes of a group stand in order between its brackets. -/
theorem runs_attributesFrom (hn : l.Nested) (hc : l.partnerAt o = some c) (ho : o < i) :
    Runs l c i ((AttributeGroup.attributesFrom l source c i).map Attribute.span) := by
  fun_induction AttributeGroup.attributesFrom l source c i with
  | case1 i hi htok => exact .nil _
  | case2 i hi t ht hname r ih =>
    obtain ⟨j, hcovers, hjc, hjr⟩ := covers_attributeAt source hn hc ho hi ht
    replace hjr : j < r.2 := hjr
    have hle : r.2 ≤ _ := AttributeGroup.le_nextComma l c r.2
    have hrest := ih (by have := hcovers.le; omega)
    exact .cons hcovers (Nat.le_refl _) hjc (hrest.mono (by omega) (Nat.le_refl _))
  | case3 i hi t ht hname ih => exact (ih (by omega)).mono (by omega) (Nat.le_refl _)
  | case4 i hi => exact .nil _

/-- Each attribute of a group is read at a token between its brackets. -/
theorem exists_of_mem_attributesFrom (h : a ∈ AttributeGroup.attributesFrom l source c i) :
    ∃ k t, i ≤ k ∧ k < c ∧ l.tokens[k]? = some t ∧
      a = (AttributeGroup.attributeAt l source k t).1 := by
  fun_induction AttributeGroup.attributesFrom l source c i with
  | case1 i hi htok => cases h
  | case2 i hi t ht hname r ih =>
    obtain rfl | h := List.mem_cons.mp h
    · exact ⟨i, t, Nat.le_refl _, hi, ht, rfl⟩
    · obtain ⟨k, u, hk, hkc, hu, rfl⟩ := ih h
      have := AttributeGroup.le_nextComma l c r.2
      have : i < r.2 := AttributeGroup.lt_attributeAt l source i t
      exact ⟨k, u, by omega, hkc, hu, rfl⟩
  | case3 i hi t ht hname ih =>
    obtain ⟨k, u, hk, hkc, hu, rfl⟩ := ih h
    exact ⟨k, u, by omega, hkc, hu, rfl⟩
  | case4 i hi => cases h

theorem attributeAt_name (l : TokenSequence) (source : Text) (i : Nat) (t : Token) :
    (AttributeGroup.attributeAt l source i t).1.name = t.text ∧
      (AttributeGroup.attributeAt l source i t).1.nameSpan = t.span := by
  unfold AttributeGroup.attributeAt
  split
  · dsimp only
    split <;> exact ⟨rfl, rfl⟩
  · exact ⟨rfl, rfl⟩

/-- Where a group of attributes stands: from its opening bracket `o` to its closing one `c`. -/
structure GroupAt (l : TokenSequence) (source : Text) (g : AttributeGroup) (o c : Nat) : Prop where
  kind : l.kindAt o = some .attrOpen
  partner : l.partnerAt o = some c
  lt : o < c
  covers : Covers l g.span o c
  attributes : g.attributes = AttributeGroup.attributesFrom l source c (o + 1)
  next : g.next = c + 1

theorem exists_groupAt (hn : l.Nested) (h : AttributeGroup.parse l source o = some g) :
    ∃ c, GroupAt l source g o c := by
  unfold AttributeGroup.parse at h
  obtain ⟨t, ht, h⟩ := Option.bind_eq_some_iff.mp h
  split at h
  · cases h
  · rename_i hkind
    obtain ⟨c, hc, h⟩ := Option.bind_eq_some_iff.mp h
    obtain rfl := Option.some.inj h
    have hkind : t.kind = .attrOpen := Classical.not_not.mp hkind
    have hpartner : l.partnerAt o = some c := partnerAt_eq_some.mpr ⟨t, ht, hc⟩
    have hlt := hn.lt_partner ht (by rw [hkind]; rfl) hc
    exact ⟨c, by rw [kindAt, ht, Option.map_some, hkind], hpartner, hlt,
      .of_tokens (Nat.le_of_lt hlt) ht (hn.lt_size hpartner), rfl, rfl⟩

theorem GroupAt.runs (hn : l.Nested) (h : GroupAt l source g o c) :
    Runs l c (o + 1) (g.attributes.map Attribute.span) := by
  rw [h.attributes]
  exact runs_attributesFrom hn h.partner (Nat.lt_succ_self o)

/-- A square bracket closes a group. -/
theorem GroupAt.close (hn : l.Nested) (h : GroupAt l source g o c) :
    l.kindAt c = some .closeBracket := by
  obtain ⟨kind, kind', hkind, hkind', -, -, openers, hcloses, hmem⟩ :=
    hn.kinds_of_partner h.partner h.lt
  obtain rfl := Option.some.inj (h.kind.symm.trans hkind)
  rw [hkind']
  cases kind' <;> simp [TokenKind.closes] at hcloses <;> subst hcloses <;> revert hmem <;> decide

/-- A group begins and ends with characters that are no blanks. -/
theorem GroupAt.framed (hl : tokenize source = .ok l) (h : GroupAt l source g o c) :
    g.span.Framed source := by
  have hn := nested_of_tokenize hl
  obtain ⟨t, ht, hstart⟩ := h.covers.first
  obtain ⟨u, hu, hstop⟩ := h.covers.last
  refine ⟨h.covers.lt hl, ?_, ?_⟩
  · obtain ⟨x, y, hsource, hx, -⟩ := exists_token_parts hl ht
    obtain ⟨b, bs, hmeasure, htext⟩ := exists_measure hl ht
    rw [htext] at hsource
    exact ⟨x, _, b, by simpa using hsource, by rw [← hstart, hx], isAsciiBlank_of_measure hmeasure⟩
  · obtain ⟨x, y, hsource, -, hx⟩ := exists_token_parts hl hu
    obtain ⟨b, bs, hmeasure, htext⟩ := exists_measure hl hu
    have hclose := h.close hn
    rw [kindAt, hu] at hclose
    rw [Option.some.inj hclose] at hmeasure
    obtain ⟨-, hone⟩ | ⟨-, -, hopen⟩ := measure_of_sealing hmeasure rfl
    · rw [hone, List.take_zero] at htext
      rw [htext] at hsource hx
      exact ⟨x, y, b, by simpa using hsource, by rw [← hstop, hx]; simp,
        isAsciiBlank_of_measure hmeasure⟩
    · rw [hopen] at hmeasure
      cases hmeasure

/-! ## §4 Methods -/

variable {close : Nat} {p p' : Pending}

/-- The offset is the start of a token before the index `i`. -/
def StartBefore (l : TokenSequence) (i n : Nat) : Prop :=
  ∃ k u, k < i ∧ l.tokens[k]? = some u ∧ u.span.start = n

theorem StartBefore.mono {n : Nat} (h : StartBefore l i n) (hij : i ≤ j) : StartBefore l j n := by
  obtain ⟨k, u, hk, hu, hstart⟩ := h
  exact ⟨k, u, by omega, hu, hstart⟩

/-- What is known of the member that is coming when the tokens before the index `i` are read. -/
structure Pending.Stands (l : TokenSequence) (source : Text) (p : Pending) (i : Nat) : Prop where
  runs : Runs l i 0 (p.attributes.map AttributeGroup.span)
  groups : ∀ g ∈ p.attributes, ∃ o c, GroupAt l source g o c
  start : ∀ n ∈ p.start, StartBefore l i n
  headStart : ∀ n ∈ p.headStart, StartBefore l i n
  first : ∀ g ∈ p.attributes, ∃ n ∈ p.start, n ≤ g.span.start
  alone : p.attributes = [] → p.start = p.headStart

namespace Pending

theorem Stands.mono (h : p.Stands l source i) (hij : i ≤ j) : p.Stands l source j :=
  ⟨h.runs.mono (Nat.le_refl _) hij, h.groups, fun n hn => (h.start n hn).mono hij,
    fun n hn => (h.headStart n hn).mono hij, h.first, h.alone⟩

theorem Stands.fresh (boundary : Nat) : (fresh boundary).Stands l source i :=
  ⟨.nil _, by simp [Pending.fresh], by simp [Pending.fresh], by simp [Pending.fresh],
    by simp [Pending.fresh], fun _ => rfl⟩

theorem Stands.group (hl : tokenize source = .ok l) (h : p.Stands l source o)
    (hg : GroupAt l source g o c) : (p.group g).Stands l source (c + 1) := by
  have hle : o ≤ c + 1 := Nat.le_succ_of_le (Nat.le_of_lt hg.lt)
  refine ⟨?_, fun d hd => ?_, fun n hn => ?_, (h.mono hle).headStart, fun d hd => ?_,
    fun hnone => absurd hnone (by simp [Pending.group])⟩
  · rw [Pending.group, List.map_append]
    exact h.runs.concat hg.covers (Nat.lt_succ_self c) (Nat.zero_le _)
  · obtain hd | hd := List.mem_append.mp hd
    · exact h.groups d hd
    · obtain rfl := List.mem_singleton.mp hd
      exact ⟨o, c, hg⟩
  · cases hs : p.start with
    | some k =>
      rw [Pending.group, hs] at hn
      exact (h.start n (hs ▸ hn)).mono hle
    | none =>
      rw [Pending.group, hs] at hn
      obtain ⟨u, hu, hstart⟩ := hg.covers.first
      exact ⟨o, u, Nat.lt_succ_of_lt hg.lt, hu, hstart.trans (Option.some.inj hn)⟩
  · obtain hd | hd := List.mem_append.mp hd
    · obtain ⟨n, hn, hle⟩ := h.first d hd
      exact ⟨n, by rw [Pending.group, Option.mem_def.mp hn]; rfl, hle⟩
    · obtain rfl := List.mem_singleton.mp hd
      cases hs : p.start with
      | none => exact ⟨_, by rw [Pending.group, hs]; rfl, Nat.le_refl _⟩
      | some n =>
        -- the token that the member starts with stands before the group
        obtain ⟨k, v, hk, hv, rfl⟩ := h.start n hs
        obtain ⟨u, hu, hstart⟩ := hg.covers.first
        exact ⟨_, by rw [Pending.group, hs]; rfl, hstart ▸ (start_lt hl hv hu hk).le⟩

theorem Stands.keyword (h : p.Stands l source i) (ht : l.tokens[i]? = some t) :
    (p.keyword t.span.start).Stands l source (i + 1) := by
  have hplace : ∀ n, t.span.start = n → StartBefore l (i + 1) n :=
    fun n hn => ⟨i, t, Nat.lt_succ_self i, ht, hn⟩
  have horElse : ∀ place : Option Nat, (∀ n ∈ place, StartBefore l i n) →
      ∀ n ∈ (place <|> some t.span.start), StartBefore l (i + 1) n := by
    intro place hplaces n hn
    cases place with
    | some k => exact (hplaces n hn).mono (Nat.le_succ i)
    | none => exact hplace n (Option.some.inj hn)
  refine ⟨h.runs.mono (Nat.le_refl _) (Nat.le_succ i), h.groups, horElse _ h.start,
    horElse _ h.headStart, fun g hg => ?_, fun hnone => ?_⟩
  · obtain ⟨n, hn, hle⟩ := h.first g hg
    exact ⟨n, by rw [Pending.keyword, Option.mem_def.mp hn]; rfl, hle⟩
  · rw [Pending.keyword, h.alone hnone]

end Pending

/-- Where a method stands. -/
structure MethodAt (l : TokenSequence) (source : Text) (m : Method) : Prop where
  runs : ∃ hi, Runs l hi 0 (m.attributes.map AttributeGroup.span)
  groups : ∀ g ∈ m.attributes, ∃ o c, GroupAt l source g o c
  headStart : ∃ (k : Nat) (u : Token), l.tokens[k]? = some u ∧ u.span.start = m.headStart
  whole : ∃ f t, Covers l m.span f t
  /-- It starts with the first of its groups or words. -/
  first : ∀ g ∈ m.attributes, m.start ≤ g.span.start
  alone : m.attributes = [] → m.start = m.headStart
  /-- Its name is a token behind its groups and its first word. -/
  name : ∃ (k : Nat) (u : Token), l.tokens[k]? = some u ∧ u.kind = .name ∧ u.text = m.name ∧
    u.span = m.nameSpan ∧ Runs l k 0 (m.attributes.map AttributeGroup.span) ∧
    StartBefore l k m.start ∧ StartBefore l k m.headStart

/-- The parameters of a method are closed after its word `function`. -/
theorem lt_signature (hn : l.Nested) {name : Token} {params : Nat}
    (h : l.signature i = some (name, params)) : i < params ∧ params < l.tokens.size := by
  unfold signature at h
  obtain ⟨n, -, h⟩ := Option.bind_eq_some_iff.mp h
  obtain ⟨opener, hopener, h⟩ := Option.bind_eq_some_iff.mp h
  obtain ⟨q, hq, h⟩ := Option.bind_eq_some_iff.mp h
  obtain ⟨-, rfl⟩ := Prod.mk.inj (Option.some.inj h)
  obtain ⟨htok, hkind⟩ := Option.filter_eq_some_iff.mp hopener
  have hkind : opener.kind = .openParen := of_decide_eq_true hkind
  have hlt := hn.lt_partner htok (by rw [hkind]; rfl) hq
  refine ⟨?_, hn.lt_size (partnerAt_eq_some.mpr ⟨opener, htok, hq⟩)⟩
  split at hlt <;> omega

/-- The name of a method is a token after its word `function`. -/
theorem name_of_signature {name : Token} {params : Nat} (h : l.signature i = some (name, params)) :
    name.kind = .name ∧ ∃ k, i < k ∧ l.tokens[k]? = some name := by
  unfold signature at h
  obtain ⟨n, hn, h⟩ := Option.bind_eq_some_iff.mp h
  obtain ⟨opener, -, h⟩ := Option.bind_eq_some_iff.mp h
  obtain ⟨q, -, h⟩ := Option.bind_eq_some_iff.mp h
  obtain ⟨rfl, -⟩ := Prod.mk.inj (Option.some.inj h)
  obtain ⟨htok, hkind⟩ := Option.filter_eq_some_iff.mp hn
  refine ⟨of_decide_eq_true hkind, _, ?_, htok⟩
  split <;> omega

/-- The body of a method, or the semicolon in its place, ends after it begins. -/
theorem le_body (hn : l.Nested) {body : Nat} (hbody : body < l.tokens.size) :
    body ≤ (if l.isKind body .openBrace then (l.partnerAt body).getD body else body) ∧
      (if l.isKind body .openBrace then (l.partnerAt body).getD body else body) < l.tokens.size := by
  split
  · rename_i hkind
    cases hq : l.partnerAt body with
    | none => exact ⟨Nat.le_refl _, hbody⟩
    | some q =>
      obtain ⟨t, ht, htq⟩ := partnerAt_eq_some.mp hq
      have hbrace : t.kind = .openBrace := by
        have := of_decide_eq_true hkind
        rw [kindAt, ht] at this
        exact Option.some.inj this
      exact ⟨Nat.le_of_lt (hn.lt_partner ht (by rw [hbrace]; rfl) htq), hn.lt_size hq⟩
  · exact ⟨Nat.le_refl _, hbody⟩

/-- What a step leads to stands where it should. -/
def Step.Stands (l : TokenSequence) (source : Text) (i : Nat) : Step → Prop
  | .go next p => p.Stands l source (max next (i + 1))
  | .found next p m => p.Stands l source (max next (i + 1)) ∧ MethodAt l source m
  | .done => True

theorem stands_methodStep (hn : l.Nested) (hclose : close < l.tokens.size)
    (h : p.Stands l source i) (ht : l.tokens[i]? = some t) :
    (l.methodStep close p i t).Stands l source i := by
  have hkeyword := h.keyword ht
  unfold methodStep
  dsimp only
  cases hsig : l.signature i with
  | none => exact hkeyword.mono (Nat.le_max_right _ _)
  | some sig =>
    obtain ⟨name, params⟩ := sig
    dsimp only
    cases hbody : l.findKind [.openBrace, .semicolon] close (params + 1) with
    | none => exact trivial
    | some body =>
      obtain ⟨hparams, hsize⟩ := lt_signature hn hsig
      obtain ⟨hle, hlt⟩ := le_of_findKind hbody
      obtain ⟨hlast, hlastsize⟩ := le_body hn (Nat.lt_trans hlt hclose)
      obtain ⟨hkind, q, hq, hname⟩ := name_of_signature hsig
      have hhead : StartBefore l (i + 1) ((p.keyword t.span.start).headStart.getD t.span.start) :=
        hkeyword.headStart _ (by cases hs : p.headStart <;> simp [Pending.keyword, hs])
      have hstart : StartBefore l (i + 1) ((p.keyword t.span.start).start.getD t.span.start) :=
        hkeyword.start _ (by cases hs : p.start <;> simp [Pending.keyword, hs])
      refine ⟨.fresh _, ⟨i + 1, hkeyword.runs⟩, hkeyword.groups, ?_, ?_, fun g hg => ?_, fun hnone => ?_,
        q, name, hname, hkind, rfl, rfl, hkeyword.runs.mono (Nat.le_refl _) hq, hstart.mono hq,
        hhead.mono hq⟩
      · obtain ⟨k, u, -, hu, hstart⟩ := hhead
        exact ⟨k, u, hu, hstart⟩
      · obtain ⟨k, u, hk, hu, hstart⟩ := hstart
        exact ⟨k, _, hstart ▸ Covers.of_tokens (by omega) hu hlastsize⟩
      · obtain ⟨n, hn, hle⟩ := hkeyword.first g hg
        show (p.keyword t.span.start).start.getD t.span.start ≤ _
        rw [Option.mem_def.mp hn]
        exact hle
      · exact congrArg (·.getD t.span.start) (hkeyword.alone hnone)

theorem stands_memberStep (hl : tokenize source = .ok l) (hclose : close < l.tokens.size)
    (h : p.Stands l source i) (ht : l.tokens[i]? = some t) :
    (l.memberStep source close p i t).Stands l source i := by
  have hn := nested_of_tokenize hl
  have hnext : ∀ next, p.Stands l source (max next (i + 1)) := fun next => h.mono (by omega)
  unfold memberStep
  split
  · cases hg : AttributeGroup.parse l source i with
    | none => exact hnext _
    | some g =>
      obtain ⟨c, hat⟩ := exists_groupAt hn hg
      exact (h.group hl hat).mono (by rw [hat.next]; exact Nat.le_max_left _ _)
  · split
    · have hkeyword := (h.keyword ht).mono (Nat.le_max_right (i + 1) (i + 1))
      exact ⟨hkeyword.runs, hkeyword.groups, hkeyword.start, hkeyword.headStart, hkeyword.first,
        hkeyword.alone⟩
    · split
      · exact stands_methodStep hn hclose h ht
      · split
        · exact .fresh _
        · split
          · exact .fresh _
          · split
            · exact hnext _
            · exact hnext _

theorem methodAt_of_mem_methodsFrom (hl : tokenize source = .ok l) (hclose : close < l.tokens.size)
    (h : p.Stands l source i) : ∀ m ∈ l.methodsFrom source close p i, MethodAt l source m := by
  fun_induction methodsFrom l source close p i with
  | case1 p i hi htok => simp
  | case2 p i hi t ht next p' hstep ih =>
    have hstands := stands_memberStep hl hclose h ht
    rw [hstep] at hstands
    exact ih hstands
  | case3 p i hi t ht next p' m hstep ih =>
    have hstands := stands_memberStep hl hclose h ht
    rw [hstep] at hstands
    intro m' hm'
    obtain rfl | hm' := List.mem_cons.mp hm'
    · exact hstands.2
    · exact ih hstands.1 m' hm'
  | case4 p i hi t ht hstep => simp
  | case5 p i hi => simp

theorem methodAt_of_mem_classesFrom (hl : tokenize source = .ok l) :
    ∀ d ∈ l.classesFrom source i, ∀ m ∈ d.methods, MethodAt l source m := by
  fun_induction classesFrom l source i with
  | case1 i htok => simp
  | case2 i t ht name hbegins n hname hbody => simp
  | case3 i t ht name hbegins n hname body hbody c hc ih =>
    intro d hd m hm
    obtain rfl | hd := List.mem_cons.mp hd
    · split at hc
      · exact methodAt_of_mem_methodsFrom hl ((nested_of_tokenize hl).lt_size hc) (.fresh _) m hm
      · cases hc
    · exact ih d hd m hm
  | case4 i t ht name hbegins n hname body hbody hc ih => exact ih
  | case5 i t ht name hother ih => exact ih

/-- Every method of a source stands in it. -/
theorem methodAt_of_mem_classes (hl : tokenize source = .ok l) {d : DeclaredClass}
    (hd : d ∈ l.classes source) (hm : m ∈ d.methods) : MethodAt l source m :=
  methodAt_of_mem_classesFrom hl d hd m hm

end Crosslink.Source
