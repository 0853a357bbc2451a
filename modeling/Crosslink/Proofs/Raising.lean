import Crosslink.Proofs.Conflicts
import Crosslink.Proofs.Inscribing
import Crosslink.Proofs.Locating
import Crosslink.Proofs.Renaming

/-!
# Attributes renamed

An attribute of a method is named by one token. When the last segment of that name is another word, all that
is read of the classes is as it was but for this attribute, and so are the imports, unless one of the words
begins a statement or the name stands in one.

* §1 `exists_segment_of_group`, the group of an attribute with another name.
* §2 `exists_classes_renamed`, the classes.
* §3 `Renamed.ofTokens_eq` and `Renamed.uncrossed`, the imports.
-/

namespace Crosslink.Source

open TokenSequence

variable {source out lead w w' : Text} {l l' : TokenSequence} {j o c k : Nat} {t : Token} {a : Attribute}
  {g : AttributeGroup} {as bs : List Attribute}

/-! ## §1 The name of an attribute -/

/-- A source with another word for the last segment of a name. -/
theorem exists_segment (hl : tokenize source = .ok l) (ht : l.tokens[j]? = some t) (hj : 0 < j)
    (hkind : t.kind = .name) (htext : t.text = lead ++ w) (hlead : lead = [] ∨ lead.getLast? = some '\\')
    (hw : IsSegment w) (hw' : IsSegment w') (hk : Text.width w' = Text.width w + k) :
    ∃ x y l', source = x ++ (w ++ y) ∧ t.span.stop = Text.width x + Text.width w ∧
      Renamed j k (lead ++ w') source (x ++ (w' ++ y)) l l' := by
  obtain ⟨P, p, Q, hcut, hp, hptext, rfl, hstart, hstop⟩ := exists_piece hl ht
  obtain rfl : p = ⟨.token .name, lead ++ w⟩ := by
    obtain ⟨kind, text⟩ := p
    obtain rfl : kind = .token t.kind := hp
    obtain rfl : text = t.text := hptext
    rw [hkind, htext]
  have hP : P ≠ [] := by
    rintro rfl
    exact absurd hj (by simp [countIn])
  have hcut' := cut_renamed hcut hP hlead hw hw'
  obtain ⟨l', hl'⟩ := exists_renamed hl hcut hcut' (k := k) (by simp only [Text.width_append]; omega)
  refine ⟨P.flatMap Piece.text ++ lead, Q.flatMap Piece.text, l', ?_, ?_, by simpa using hl'⟩
  · rw [source_eq hcut]
    simp
  · rw [← hstop, extent_append, Reading.extent, Reading.extent]
    simp [Nat.add_assoc]

/-- The group of which an attribute is renamed. -/
def AttributeGroup.renamed (g : AttributeGroup) (k : Nat) (attributes : List Attribute) : AttributeGroup :=
  ⟨⟨g.span.start, g.span.stop + k⟩, attributes, g.next⟩

/-- The name of an attribute of a group stands in the group, and with another word for its last segment
the group is read again. -/
theorem exists_segment_of_group (hl : tokenize source = .ok l) (hg : GroupAt l source g o c)
    (hparse : AttributeGroup.parse l source o = some g) (hattributes : g.attributes = as ++ a :: bs)
    (hname : a.name = lead ++ w) (hlead : lead = [] ∨ lead.getLast? = some '\\')
    (hw : IsSegment w) (hw' : IsSegment w') (hk : Text.width w' = Text.width w + k) :
    ∃ j t x y l', o < j ∧ j < c ∧ l.tokens[j]? = some t ∧ t.span = a.nameSpan ∧ t.text = a.name ∧
      source = x ++ (w ++ y) ∧ a.nameSpan.stop = Text.width x + Text.width w ∧
      Renamed j k (lead ++ w') source (x ++ (w' ++ y)) l l' ∧
      AttributeGroup.parse l' (x ++ (w' ++ y)) o =
        some (g.renamed k (as ++ a.renamed (lead ++ w') k :: bs.map (Attribute.shift k))) := by
  rw [hg.attributes] at hattributes
  obtain ⟨j, t, hwalk, hj, ht, hkind, ha, hbs⟩ := AttributeGroup.exists_walk hattributes
  have hlt := hwalk.le
  obtain ⟨htext, hspan⟩ := attributeAt_name l source j t
  rw [← ha] at htext hspan
  obtain ⟨x, y, l', hsource, hstop, hrenamed⟩ := exists_segment hl ht (by omega) hkind
    (htext.symm.trans hname) hlead hw hw' hk
  exact ⟨j, t, x, y, l', hlt, hj, ht, hspan.symm, htext.symm, hsource, by rw [hspan, hstop], hrenamed,
    hrenamed.parse hg hparse hwalk hj ht hkind ha hbs⟩

/-! ## §2 The classes -/

/-- Where a name is another the source is revised, in a stretch that holds it. -/
theorem Renamed.revised {name : Text} {y : Nat} (h : Renamed j k name source out l l')
    (ht : l.tokens[j]? = some t) (ho : o ≤ j) (hy : j < y)
    (hopens : Copied.Ends o 0 l') : Revised t.span.start id o y 0 k source out l l' where
  nested := nested_of_tokenize h.read
  nested' := nested_of_tokenize h.read'
  before := h.before.mono (Nat.le_refl 0) ho (fun q hq => hq) fun q hq => hq
  after := h.after.mono hy (Nat.le_refl _) (fun q hq => hq) fun q hq => hq
  size := h.size
  read := h.read
  early i u hi hu := stop_le_start h.read hu ht (by omega)
  late i u hi hu := by
    have := start_lt h.read ht hu (by omega)
    omega
  docs := h.docs t ht
  opens := hopens

/-- A member starts with its first group, or before it. -/
theorem start_growAll_group (p : Pending) (g : AttributeGroup) (xs : List (Growth × Nat)) :
    (growAll (growAll p (turnsAt [g])) xs).start = some (p.start.getD g.span.start) := by
  refine start_growAll_of_some ?_ xs
  show (p.grow (.group g)).start = _
  rw [start_grow]
  cases p.start <;> rfl

variable {C₁ C₂ : List DeclaredClass} {d : DeclaredClass} {ms ms' : List Method} {m : Method}
  {A B : List AttributeGroup}

/-- What is taken in for a member by some token starts there or before. -/
theorem Seat.start_le {docs : Nat → Nat → Option Span} {close i b b' : Nat} {us : List Turn}
    {xs₁ xs₂ : List (Growth × Nat)} {head : MethodHead}
    (h : Seat l source docs close i b ms m ms' us o b' xs₁ xs₂ head) (hl : tokenize source = .ok l)
    (ht : l.tokens[o]? = some t) : ∀ s ∈ (growAll (.fresh b') xs₁).start, s ≤ t.span.start := by
  intro s hs
  rw [← h.pending] at hs
  obtain hfresh | ⟨u, hu, hplace⟩ := start_of_pendingAfter us (.fresh b) s hs
  · cases hfresh
  · obtain ⟨q, v, -, hq, hv, hturn⟩ := h.path.exists_token hu
    rw [place_of_turn (nested_of_tokenize hl) hv hturn s hplace]
    exact (start_lt hl hv ht hq).le

/-- What opens a group of attributes is no ampersand. -/
theorem text_of_attrOpen {i : Nat} (hl : tokenize source = .ok l) (ht : l.tokens[i]? = some t)
    (h : t.kind = .attrOpen) : t.text ≠ ['&'] := by
  obtain ⟨c, cs, hmeasure, htext⟩ := exists_measure hl ht
  rintro he
  rw [htext] at he
  obtain ⟨rfl, -⟩ := List.cons.inj he
  rw [h] at hmeasure
  have hblank : isAsciiBlank '&' = false := by decide
  have hstart : isNameStart '&' = false := by decide
  simp [measure, hblank, hstart] at hmeasure

/-- When an attribute of a method has another word for the last segment of its name, the classes are as
they were but for that attribute. -/
theorem exists_classes_renamed (hl : tokenize source = .ok l) (hclasses : l.classes source = C₁ ++ d :: C₂)
    (hmethods : d.methods = ms ++ m :: ms') (hgroups : m.attributes = A ++ g :: B)
    (hattributes : g.attributes = as ++ a :: bs) (hname : a.name = lead ++ w)
    (hlead : lead = [] ∨ lead.getLast? = some '\\') (hw : IsSegment w) (hw' : IsSegment w')
    (hk : Text.width w' = Text.width w + k) :
    ∃ j t x y l', l.tokens[j]? = some t ∧ t.span = a.nameSpan ∧ t.text = a.name ∧ m.start ≤ t.span.start ∧
      source = x ++ (w ++ y) ∧ a.nameSpan.stop = Text.width x + Text.width w ∧
      Renamed j k (lead ++ w') source (x ++ (w' ++ y)) l l' ∧
      ∃ C₁' d' C₂' ms₁ m₁ ms₂, l'.classes (x ++ (w' ++ y)) = C₁' ++ d' :: C₂' ∧
        List.Forall₂ (DeclaredClass.Again source (x ++ (w' ++ y))) C₁ C₁' ∧
        List.Forall₂ (DeclaredClass.Again source (x ++ (w' ++ y))) C₂ C₂' ∧
        d'.name = d.name ∧ d'.methods = ms₁ ++ m₁ :: ms₂ ∧
        List.Forall₂ (Method.Again source (x ++ (w' ++ y))) ms ms₁ ∧
        List.Forall₂ (Method.Again source (x ++ (w' ++ y))) ms' ms₂ ∧
        Method.Regrouped source (x ++ (w' ++ y)) m A [g]
          [g.renamed k (as ++ a.renamed (lead ++ w') k :: bs.map (Attribute.shift k))] B m₁ ∧
        m₁.start = m.start := by
  have hn := nested_of_tokenize hl
  rw [classes_eq] at hclasses
  obtain ⟨Hs₁, Hs, hheaders, rfl, hHs⟩ := List.map_eq_append_iff.mp hclasses
  obtain ⟨H, Hs₂, rfl, rfl, rfl⟩ := List.map_eq_cons_iff.mp hHs
  have hplay := hmethods
  rw [ClassHeader.read, methodsFrom_eq] at hplay
  obtain ⟨us, o, c, b', xs₁, xs₂, head, hseat, rfl, rfl, hparse, hat, hclose⟩ :=
    exists_seat_group hn hplay hgroups
  obtain ⟨j, t, x, y, l', hoj, hjc, ht, hspan, htext, hsource, hstop, hrenamed, hparse'⟩ :=
    exists_segment_of_group hl hat hparse hattributes hname hlead hw hw' hk
  generalize hout : x ++ (w' ++ y) = out at *
  generalize hg' : g.renamed k (as ++ a.renamed (lead ++ w') k :: bs.map (Attribute.shift k)) = g' at *
  have hstands := (stands_of_mem hn (hheaders ▸ show H ∈ Hs₁ ++ H :: Hs₂ by simp)).2
  have hsize := hn.lt_size hstands.partner
  obtain ⟨u, hu, hustart⟩ := hat.covers.first
  have hnext : max g.next (o + 1) = c + 1 := by
    rw [hat.next]
    omega
  have hnext' : max g'.next (o + 1) = c + 1 := by
    rw [← hg']
    exact hnext
  -- the group opens at the same token in both sources
  have hopens : Copied.Ends o 0 l' := by
    intro v hv
    have hcarried := hrenamed.before.token o (Nat.zero_le o) hoj
    rw [hu, Option.map_some] at hcarried
    obtain rfl := Option.some.inj (hv.symm.trans hcarried)
    have hkind := hat.kind
    rw [kindAt, hu] at hkind
    exact ⟨Option.some.inj hkind, text_of_attrOpen hrenamed.read' hv (Option.some.inj hkind)⟩
  have hrevised := hrenamed.revised ht hoj.le (show j < c + 1 by omega) hopens
  obtain ⟨v, hv, hturn⟩ := turn_of_parse H.close hparse
  obtain ⟨v', hv', hturn'⟩ := turn_of_parse H.close hparse'
  have hpath : TokenSequence.Path l source H.close o (growTurns (turnsAt [g])) (c + 1) := by
    refine .cons (by omega) hv hturn ?_
    rw [Turn.next, hnext]
    exact .nil _
  have hpath' : TokenSequence.Path l' out H.close o (growTurns (turnsAt [g'])) (c + 1) := by
    refine .cons (by omega) hv' hturn' ?_
    rw [Turn.next, hnext']
    exact .nil _
  -- the method starts where it did
  have hstart : m.start = (growAll (.fresh b') xs₁).start.getD g.span.start := by
    rw [hseat.method, growAll_append, growAll_append]
    exact congrArg (·.getD head.place) (start_growAll_group _ g xs₂)
  have hstart' : (Pending.regrouped b' xs₁ [g'] xs₂ 0 k).start.getD (head.place + k) = m.start := by
    rw [Pending.regrouped, start_growAll_group, hstart, ← hg']
    rfl
  have hle : m.start ≤ u.span.start := by
    rw [hstart]
    cases hs : (growAll (.fresh b') xs₁).start with
    | none => exact hustart.ge
    | some s => exact hseat.start_le hl hu s hs
  have hlt := start_lt hl hu ht hoj
  have hdoc : (l'.docBetween b' ((Pending.regrouped b' xs₁ [g'] xs₂ 0 k).start.getD (head.place + k))).map
      (Span.slice · out) = m.doc.map (Span.slice · source) := by
    obtain ⟨hsame, hslice⟩ := hrevised.docs.before b' m.start (by omega)
    have hdoc : m.doc = l.docBetween b' m.start := by
      rw [hseat.method]
      exact congrArg (l.docBetween · _) (boundary_growAll _ _)
    rw [hstart', hsame, hdoc]
    exact Option.map_congr hslice
  obtain ⟨C₁', d', C₂', ms₁, m₁, ms₂, hclasses', hC₁, hC₂, hdname, hmethods', hms, hms', hm, hmstart⟩ :=
    hrevised.exists_classes_regrouped hheaders hseat hpath hpath' (by omega) hdoc
  exact ⟨j, t, x, y, l', ht, hspan, htext, by omega, hsource, hstop, hout ▸ hrenamed, C₁', d', C₂', ms₁, m₁, ms₂,
    hout ▸ hclasses', hout ▸ hC₁, hout ▸ hC₂, hdname, hmethods', hout ▸ hms, hout ▸ hms', hout ▸ hm,
    hmstart.trans hstart'⟩

/-! ## §3 The imports -/

section Imports

open Imports

variable {name : Text} {i q : Nat} {s : Collected} {t' : Token}

theorem Renamed.carried (h : Renamed j k name source out l l') (hq : q ≠ j) :
    ∃ n : Nat, l'.tokens[q]? = (l.tokens[q]?).map (Token.carried id (fun _ => Span.shift n) q) := by
  obtain hlt | hlt := Nat.lt_or_gt_of_ne hq
  · exact ⟨0, h.before.token q (Nat.zero_le q) hlt⟩
  · by_cases hsize : q < l.tokens.size
    · exact ⟨k, h.after.token q hlt hsize⟩
    · refine ⟨0, ?_⟩
      rw [Array.getElem?_eq_none (by have := h.size; omega), Array.getElem?_eq_none (by omega)]
      rfl

theorem Renamed.kindAt_eq (h : Renamed j k name source out l l') (q : Nat) : l'.kindAt q = l.kindAt q := by
  by_cases hq : q = j
  · obtain ⟨t, ht, -, ht'⟩ := h.named
    rw [hq, kindAt, kindAt, ht, ht']
    rfl
  · obtain ⟨n, hn⟩ := h.carried hq
    rw [kindAt, kindAt, hn]
    cases l.tokens[q]? <;> rfl

theorem Renamed.isKind_eq (h : Renamed j k name source out l l') (q : Nat) (kind : TokenKind) :
    l'.isKind q kind = l.isKind q kind := by
  rw [isKind, isKind, h.kindAt_eq]

theorem Renamed.partnerAt_eq (h : Renamed j k name source out l l') (q : Nat) :
    l'.partnerAt q = l.partnerAt q := by
  by_cases hq : q = j
  · obtain ⟨t, ht, -, ht'⟩ := h.named
    rw [hq, partnerAt, partnerAt, ht, ht']
    rfl
  · obtain ⟨n, hn⟩ := h.carried hq
    rw [partnerAt, partnerAt, hn]
    cases l.tokens[q]? <;> simp [Token.carried]

theorem Renamed.wordAt_eq (h : Renamed j k name source out l l') (hq : q ≠ j) : l'.wordAt q = l.wordAt q := by
  obtain ⟨n, hn⟩ := h.carried hq
  rw [wordAt, wordAt, hn]
  cases l.tokens[q]? <;> rfl

theorem Renamed.statementStop_eq (h : Renamed j k name source out l l') (i : Nat) :
    statementStop l' i = statementStop l i := by
  have hfind : l'.findKind [.semicolon] l'.tokens.size i = l.findKind [.semicolon] l.tokens.size i := by
    rw [h.size]
    fun_induction findKind l [.semicolon] l.tokens.size i with
    | case1 i hi hk => rw [findKind, if_pos hi, h.kindAt_eq, if_pos hk]
    | case2 i hi hk ih => rw [findKind, if_pos hi, h.kindAt_eq, if_neg hk, ih]
    | case3 i hi => rw [findKind, if_neg hi]
  rw [statementStop, statementStop, hfind, h.size]

/-- A name that is read for no statement does not begin one either. -/
structure Renamed.Unread (l l' : TokenSequence) (j : Nat) : Prop where
  old : ∀ t, l.tokens[j]? = some t → t.isWord "use" = false ∧ t.isWord "namespace" = false
  new : ∀ t, l'.tokens[j]? = some t → t.isWord "use" = false ∧ t.isWord "namespace" = false

theorem Renamed.groupName_eq (h : Renamed j k name source out l l') (hi : i ≠ j) (hi' : i + 1 ≠ j) :
    groupName l' i = groupName l i := by
  have hsecond := h.kindAt_eq (i + 2)
  unfold groupName
  cases h₀ : l.tokens[i]? with
  | none => rw [none_of_wordAt (h.wordAt_eq hi) h₀]
  | some u =>
    obtain ⟨u', hu', hukind, hutext⟩ := exists_token_of_wordAt (h.wordAt_eq hi) h₀
    rw [hu']
    cases h₁ : l.tokens[i + 1]? with
    | none => rw [none_of_wordAt (h.wordAt_eq hi') h₁]
    | some v =>
      obtain ⟨v', hv', -, hvtext⟩ := exists_token_of_wordAt (h.wordAt_eq hi') h₁
      rw [hv']
      rw [kindAt, kindAt] at hsecond
      cases h₂ : l.tokens[i + 2]? with
      | none =>
        rw [h₂, Option.map_none] at hsecond
        rw [Option.map_eq_none_iff.mp hsecond]
      | some x =>
        rw [h₂] at hsecond
        obtain ⟨x', hx', hxkind⟩ := Option.map_eq_some_iff.mp hsecond
        simp only [hx', hukind, hutext, hvtext, hxkind]

theorem lt_statement (hsize : i ≤ l.tokens.size) (hlist : l.isKind i .openParen = false) :
    i < (statement l i).2 := by
  have := le_statementStop l hsize
  have hnext : (statement l i).2 = statementStop l i + 1 := by
    simp only [statement, if_neg (Bool.eq_false_iff.mp hlist), statementStop]
    split
    · rfl
    · split <;> rfl
  omega

/-- A statement that does not reach to the name, or that imports no classes, is read again. -/
theorem Renamed.statement_eq (h : Renamed j k name source out l l') (hi : i ≠ j) (hsize : i ≤ l.tokens.size)
    (hreach : i < j → (statement l i).2 ≤ j ∨ l.isKind i .openParen = true ∨
      (l.tokens[i]?).any (·.isOneOf ["function", "const"]) = true) :
    statement l' i = statement l i := by
  have hstop := h.statementStop_eq i
  have hany := any_congr (h.wordAt_eq hi) ["function", "const"]
  by_cases hlist : l.isKind i .openParen = true
  · simp only [statement, h.isKind_eq, h.partnerAt_eq, if_pos hlist]
  · by_cases hclasses : (l.tokens[i]?).any (·.isOneOf ["function", "const"]) = true
    · simp only [statementStop] at hstop
      simp only [statement, h.isKind_eq, if_neg hlist, hany, if_pos hclasses, hstop]
    · have hlt : i < j → statementStop l i < j := fun hij => by
        have := (hreach hij).resolve_right (not_or.mpr ⟨hlist, hclasses⟩)
        simp only [statement, if_neg hlist, if_neg hclasses, statementStop] at this ⊢
        split at this <;> dsimp only at this <;> omega
      have hle := le_statementStop l hsize
      have hend := kindAt_statementStop l i
      have hname : l.kindAt (statementStop l i) ≠ some .name := by
        obtain he | he := hend <;> rw [he] <;> simp
      have hgroup : groupName l' i = groupName l i := by
        by_cases hnext : i + 1 = j
        · -- the statement is over before it has a name
          have := hlt (by omega)
          rw [show statementStop l i = i by omega] at hname
          rw [groupName_of_kind hname, groupName_of_kind (by rwa [h.kindAt_eq])]
        · exact h.groupName_eq hi hnext
      obtain ⟨h₁, h₂⟩ := classes_of_group (d := 0) (Bool.eq_false_iff.mpr hlist)
        (Bool.eq_false_iff.mpr hclasses) rfl hstop hle hname
        (fun q hq hq' => h.wordAt_eq (show q ≠ j by
          by_cases hij : i < j
          · have := hlt hij
            omega
          · omega)) hgroup
      exact h₁.trans (Prod.ext rfl h₂.symm)

/-- A step that does not cross the place before the name does the same in both sources, as does the one
over it. -/
theorem Renamed.step_eq (h : Renamed j k name source out l l') (hu : Renamed.Unread l l' j)
    (ht : l.tokens[i]? = some t) (ht' : l'.tokens[i]? = some t')
    (hi : i < j → j < (s.step l i t).2 → t.isWord "use" = true ∧ i + 1 < j ∧ importsAt l s i t = false) :
    s.step l' i t' = s.step l i t := by
  have hlt := (Array.getElem?_eq_some_iff.mp ht).1
  by_cases hij : i = j
  · subst hij
    obtain ⟨v, hv, hkind, hv'⟩ := h.named
    obtain ⟨huse, hns⟩ := hu.old t ht
    obtain ⟨huse', hns'⟩ := hu.new t' ht'
    obtain rfl := Option.some.inj (ht.symm.trans hv)
    have hkind' : t'.kind = .name := by
      obtain rfl := Option.some.inj (ht'.symm.trans hv')
      exact hkind
    rw [step_of_unread (by simp [hkind]) huse hns, step_of_unread (by simp [hkind']) huse' hns']
  obtain ⟨u, hu', hkind, htext⟩ := exists_token_of_wordAt (h.wordAt_eq hij) ht
  obtain rfl := Option.some.inj (hu'.symm.trans ht')
  have hnames : ∀ word : Text, u.isWord word = t.isWord word := isWord_eq hkind htext
  have hboth : t.isWord "use" = true → t.isWord "namespace" = false := by
    intro huse
    refine Bool.eq_false_iff.mpr fun hns => ?_
    simp only [Token.isWord, Bool.and_eq_true] at huse hns
    have := (eq_of_beq huse.2).symm.trans (eq_of_beq hns.2)
    revert this
    decide
  unfold Collected.step at hi ⊢
  rw [hkind, hnames, hnames]
  by_cases hopen : t.kind = .openBrace
  · rw [if_pos hopen, if_pos hopen]
  rw [if_neg hopen] at hi ⊢
  rw [if_neg hopen]
  by_cases hclose : t.kind = .closeBrace
  · rw [if_pos hclose, if_pos hclose]
  rw [if_neg hclose] at hi ⊢
  rw [if_neg hclose]
  by_cases hns : (s.braces.isEmpty && t.isWord "namespace") = true
  · rw [if_pos hns] at hi ⊢
    rw [if_pos hns]
    dsimp only at hi ⊢
    have hnext : i + 1 ≠ j := by
      intro he
      obtain ⟨v, hv, hvkind, -⟩ := h.named
      have hsome : (l.tokens[i + 1]?).filter (·.kind = .name) = some v := by
        rw [he, hv]
        simp [Option.filter, hvkind]
      rw [hsome] at hi
      have huse := (hi (by omega) (by simp only [Option.isSome_some, if_true]; split <;> omega)).1
      rw [hboth huse, Bool.and_false] at hns
      cases hns
    have hnamed := name_congr (h.wordAt_eq hnext)
    have hsome : ((l'.tokens[i + 1]?).filter (·.kind = .name)).isSome =
        ((l.tokens[i + 1]?).filter (·.kind = .name)).isSome := by
      rw [← Option.isSome_map (f := Token.text), hnamed, Option.isSome_map]
    rw [hnamed, hsome, h.isKind_eq]
  rw [if_neg hns] at hi ⊢
  rw [if_neg hns]
  by_cases huse : (s.braces.all id && t.isWord "use") = true
  · rw [if_pos huse] at hi ⊢
    rw [if_pos huse]
    dsimp only at hi ⊢
    obtain ⟨hall, hword⟩ := Bool.and_eq_true_iff.mp huse
    have hnext : i + 1 ≠ j := by
      rintro rfl
      obtain ⟨v, hv, hvkind, -⟩ := h.named
      have hlist : l.isKind (i + 1) .openParen = false :=
        not_isKind (show l.kindAt (i + 1) = some .name by rw [kindAt, hv, ← hvkind]; rfl) (by decide)
      have := lt_statement (i := i + 1) hlt hlist
      have := (hi (by omega) (by omega)).2.1
      omega
    have hstatement : statement l' (i + 1) = statement l (i + 1) := by
      refine h.statement_eq hnext hlt fun hlt => ?_
      by_cases hreach : (statement l (i + 1)).2 ≤ j
      · exact .inl hreach
      · obtain ⟨-, -, hno⟩ := hi (by omega) (by omega)
        rw [importsAt, hword, hall] at hno
        refine .inr ?_
        by_cases hlist : l.isKind (i + 1) .openParen = true
        · exact .inl hlist
        · rw [Bool.eq_false_iff.mpr hlist, Bool.and_self, Bool.not_false, Bool.and_self, Bool.true_and,
            Bool.not_eq_false'] at hno
          exact .inr hno
    rw [hstatement]
  · rw [if_neg huse, if_neg huse]

theorem Renamed.exists_token (h : Renamed j k name source out l l') : (∃ t, l.tokens[i]? = some t) ↔
    ∃ t', l'.tokens[i]? = some t' := by
  have hkind := h.kindAt_eq i
  simp only [kindAt] at hkind
  cases hu : l.tokens[i]? <;> cases hu' : l'.tokens[i]? <;> simp_all

/-- The walk that collects imports comes to the same places if it does not cross the name. -/
theorem Renamed.comes_iff (h : Renamed j k name source out l l') (hu : Renamed.Unread l l' j)
    (huncrossed : Uncrossed l j) : Comes l' i s ↔ Comes l i s := by
  constructor
  · intro hs
    induction hs with
    | start => exact .start
    | @step i s t' before token' ih =>
      obtain ⟨t, ht⟩ := h.exists_token.mpr ⟨t', token'⟩
      rw [h.step_eq hu ht token' (huncrossed i s t ih ht)]
      exact .step ih ht
  · intro hs
    induction hs with
    | start => exact .start
    | @step i s t before token ih =>
      obtain ⟨t', ht'⟩ := h.exists_token.mp ⟨t, token⟩
      rw [← h.step_eq hu token ht' (huncrossed i s t before token)]
      exact .step ih ht'

/-- A name that the walk that collects imports does not cross may be another. -/
theorem Renamed.ofTokens_eq (h : Renamed j k name source out l l') (hu : Renamed.Unread l l' j)
    (huncrossed : Uncrossed l j) : ofTokens l' = ofTokens l := by
  obtain ⟨i, s, hs, hi, himports⟩ := exists_comes l
  rw [← himports, ← collect_of_comes ((h.comes_iff hu huncrossed).mpr hs), collect]
  have hsize := h.size
  split
  · rfl
  · rename_i u hu
    have := (Array.getElem?_eq_some_iff.mp hu).1
    omega

/-- It crosses the same places then. -/
theorem Renamed.uncrossed (h : Renamed j k name source out l l') (hu : Renamed.Unread l l' j)
    (huncrossed : Uncrossed l j) (hq : Uncrossed l q) : Uncrossed l' q := by
  intro i s t' hs ht' hi hlt
  have hs := (h.comes_iff hu huncrossed).mp hs
  obtain ⟨t, ht⟩ := h.exists_token.mpr ⟨t', ht'⟩
  have hcross := huncrossed i s t hs ht
  rw [h.step_eq hu ht ht' hcross] at hlt
  obtain ⟨huse, hnext, hno⟩ := hq i s t hs ht hi hlt
  have hij : i ≠ j := by
    rintro rfl
    rw [(hu.old t ht).1] at huse
    cases huse
  have hij' : i + 1 ≠ j := by
    rintro rfl
    have := (hcross (by omega) (by omega)).2.1
    omega
  obtain ⟨u, hu', hkind, htext⟩ := exists_token_of_wordAt (h.wordAt_eq hij) ht
  obtain rfl := Option.some.inj (hu'.symm.trans ht')
  have hword := isWord_eq hkind htext "use"
  refine ⟨hword.trans huse, hnext, ?_⟩
  rw [importsAt, hword, h.isKind_eq, any_congr (h.wordAt_eq hij')]
  exact hno

end Imports

end Crosslink.Source
