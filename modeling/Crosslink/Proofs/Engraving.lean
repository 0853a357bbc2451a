import Crosslink.Production.Editor
import Crosslink.Proofs.Entries
import Crosslink.Proofs.Passing
import Crosslink.Proofs.Places
import Crosslink.Proofs.Quoting

/-!
# Attribute groups that are written

A group of one attribute is cut into the same pieces wherever it is written, given that its arguments
are. Where those pieces stand in a source the attribute is read with these arguments. So the group that
names a test names it, given that its arguments can be read back.

* §1 `groupPieces`, a group of one attribute, and `group_of_cut`, what is read of it.
* §2 `Inscription`, a group that can be written, and `Inscription.ofEntries`.
* §3 `quote`, an argument that is a quoted text.
* §4 `ReadsBack` and `exists_inscriptions`, the groups that name tests.
-/

namespace Crosslink.Source

open TokenSequence

variable {source name : Text} {l : TokenSequence} {A Q : List Piece} {es : List ListEntry}

/-! ## §1 Groups of one attribute -/

/-- The pieces of a list in parentheses. -/
def listPieces (es : List ListEntry) : List Piece :=
  ⟨.token .openParen, ['(']⟩ :: (es.flatMap ListEntry.pieces ++ [⟨.token .closeParen, [')']⟩])

/-- The pieces of a group of one attribute that has a list. -/
def groupPieces (name : Text) (es : List ListEntry) : List Piece :=
  ⟨.token .attrOpen, ['#', '[']⟩ ::
    (⟨.token .name, name⟩ :: listPieces es ++ [⟨.token .closeBracket, [']']⟩])

theorem block_of_token {p : Piece} {kind : TokenKind} (hp : p.kind = .token kind)
    (hopens : kind.opens = false) (hcloses : kind.closes = none) : Block [p] := by
  refine ⟨fun q hq d => ?_, ?_⟩
  · obtain rfl := List.mem_singleton.mp hq
    simp [hp]
  · rw [kindsIn_of_token hp, settle, if_neg (by simp [hopens]), hcloses]
    rfl

theorem block_blanks (g : Text) : Block (blanks g) := by
  refine ⟨fun p hp d => ?_, ?_⟩
  · obtain ⟨c, -, rfl⟩ := List.mem_map.mp hp
    simp
  · rw [kindsIn, (Spells.blanks g).words]
    rfl

theorem bracketed_list (h : Block (es.flatMap ListEntry.pieces)) :
    Bracketed ⟨.token .openParen, ['(']⟩ (es.flatMap ListEntry.pieces) ⟨.token .closeParen, [')']⟩ :=
  ⟨⟨.openParen, .closeParen, rfl, rfl, rfl, rfl, [.openParen], rfl, rfl⟩, h⟩

theorem bracketed_group (h : Block (es.flatMap ListEntry.pieces)) :
    Bracketed ⟨.token .attrOpen, ['#', '[']⟩ (⟨.token .name, name⟩ :: listPieces es)
      ⟨.token .closeBracket, [']']⟩ :=
  ⟨⟨.attrOpen, .closeBracket, rfl, rfl, rfl, rfl, [.openBracket, .attrOpen], rfl, rfl⟩,
    (block_of_token (p := ⟨.token .name, name⟩) rfl rfl rfl).append (bracketed_list h).isBlock⟩

theorem block_of_entries {fresh : Bool} (hes : Entries fresh es)
    (hbare : ∀ e ∈ es, ∀ p ∈ e.pieces, p.kind = .blank ∨ ∃ kind, p.kind = .token kind) :
    Block (es.flatMap ListEntry.pieces) := by
  refine ⟨fun p hp d => ?_, settle_of_entries hes⟩
  obtain ⟨e, he, hp⟩ := List.mem_flatMap.mp hp
  obtain hkind | ⟨kind, hkind⟩ := hbare e he p hp <;> simp [hkind]

theorem block_groupPieces (h : Block (es.flatMap ListEntry.pieces)) : Block (groupPieces name es) :=
  (bracketed_group h).isBlock

theorem countIn_cons {p : Piece} {kind : TokenKind} (hp : p.kind = .token kind) (ps : List Piece) :
    countIn (p :: ps) = countIn ps + 1 := by
  rw [← List.singleton_append, countIn_append, countIn_singleton hp, Nat.add_comm]

theorem countIn_blanks (g : Text) : countIn (blanks g) = 0 := by
  rw [countIn, (Spells.blanks g).words]
  rfl

theorem countIn_listPieces (es : List ListEntry) :
    countIn (listPieces es) = countIn (es.flatMap ListEntry.pieces) + 2 := by
  rw [listPieces, countIn_cons rfl, countIn_append, countIn_singleton rfl]

theorem countIn_groupPieces (name : Text) (es : List ListEntry) :
    countIn (groupPieces name es) = countIn (es.flatMap ListEntry.pieces) + 5 := by
  rw [groupPieces, countIn_cons rfl, List.cons_append, countIn_cons rfl, countIn_append,
    countIn_singleton rfl, countIn_listPieces]

theorem texts_argumentsOf (offset : Nat) (es : List ListEntry) :
    (argumentsOf offset es).map Argument.text = es.map fun e => e.item.flatMap Piece.text := by
  induction es generalizing offset with
  | nil => rfl
  | cons e es ih => rw [argumentsOf, List.map_cons, List.map_cons, ih]

/-- What is read of a group of one attribute. -/
theorem group_of_cut (hes : Entries true es) (hb : Block (es.flatMap ListEntry.pieces))
    (hl : tokenize source = .ok l) (hcut : cut source = A ++ (groupPieces name es ++ Q)) :
    ∃ g a, AttributeGroup.parse l source (countIn A) = some g ∧
      g.next = countIn A + countIn (groupPieces name es) ∧
      g.span = ⟨Reading.extent A, Reading.extent A + Reading.extent (groupPieces name es)⟩ ∧
      g.attributes = [a] ∧ a.name = name ∧
      a.arguments.map Argument.text = es.map fun e => e.item.flatMap Piece.text := by
  have hopen : cut source = A ++ ⟨.token .attrOpen, ['#', '[']⟩ ::
      ((⟨.token .name, name⟩ :: listPieces es) ++ ⟨.token .closeBracket, [']']⟩ :: Q) := by
    rw [hcut, groupPieces]
    simp
  have hname : cut source = (A ++ [⟨.token .attrOpen, ['#', '[']⟩]) ++ ⟨.token .name, name⟩ ::
      (listPieces es ++ ⟨.token .closeBracket, [']']⟩ :: Q) := by
    rw [hopen]
    simp
  have hlist : cut source = (A ++ [⟨.token .attrOpen, ['#', '[']⟩, ⟨.token .name, name⟩]) ++
      ⟨.token .openParen, ['(']⟩ :: (es.flatMap ListEntry.pieces ++ [] ++ ⟨.token .closeParen, [')']⟩ ::
        (⟨.token .closeBracket, [']']⟩ :: Q)) := by
    rw [hopen, listPieces]
    simp
  have hb' := bracketed_list hb
  rw [← List.append_nil (es.flatMap ListEntry.pieces)] at hb'
  have houter := partnerAt_of_cut hl hopen (bracketed_group hb)
  have hinner := partnerAt_of_cut hl hlist hb'
  have harguments := arguments_of_cut hes (by simp [Commas, kindsIn]) hl hlist hb'
  obtain ⟨t, ht, hkind, -, hspan⟩ := exists_token_of_cut hl hopen rfl
  obtain ⟨u, hu, hukind, hutext, -⟩ := exists_token_of_cut hl hname rfl
  have hparen := kindAt_of_cut hl hlist (p := ⟨.token .openParen, ['(']⟩) rfl
  have hsecond : countIn (A ++ [⟨.token .attrOpen, ['#', '[']⟩]) = countIn A + 1 := by
    rw [countIn_append, countIn_singleton rfl]
  have hthird : countIn (A ++ [⟨.token .attrOpen, ['#', '[']⟩, ⟨.token .name, name⟩]) =
      countIn A + 1 + 1 := by
    rw [countIn_append, countIn_cons rfl, countIn_singleton rfl]
  rw [hsecond] at hu
  rw [hthird, List.append_nil] at hinner
  rw [hthird] at harguments hparen
  rw [countIn_cons rfl, countIn_listPieces] at houter
  generalize hn : countIn (es.flatMap ListEntry.pieces) = n at hinner houter
  obtain ⟨v, hv, hpartner⟩ := partnerAt_eq_some.mp houter
  obtain rfl := Option.some.inj (ht.symm.trans hv)
  have hparse : AttributeGroup.parse l source (countIn A) = some
      ⟨⟨t.span.start, l.stopAt (countIn A + 1 + (n + 2 + 1))⟩,
        AttributeGroup.attributesFrom l source (countIn A + 1 + (n + 2 + 1)) (countIn A + 1),
        countIn A + 1 + (n + 2 + 1) + 1⟩ := by
    simp [AttributeGroup.parse, ht, hkind, hpartner]
  have hattribute : AttributeGroup.attributeAt l source (countIn A + 1) u =
      (⟨name, u.span, ⟨u.span.start, l.stopAt (countIn A + 1 + 1 + 1 + n)⟩,
        argumentsOf (Reading.extent (A ++ [⟨.token .attrOpen, ['#', '[']⟩, ⟨.token .name, name⟩] ++
          [⟨.token .openParen, ['(']⟩])) es⟩, countIn A + 1 + (n + 2 + 1)) := by
    unfold AttributeGroup.attributeAt
    rw [if_pos (by rw [isKind_of_kindAt hparen]; rfl), hinner, harguments]
    simp only [hutext, Prod.mk.injEq, true_and]
    omega
  have hcomma : AttributeGroup.nextComma l (countIn A + 1 + (n + 2 + 1)) (countIn A + 1 + (n + 2 + 1)) =
      countIn A + 1 + (n + 2 + 1) := by
    rw [AttributeGroup.nextComma]
    simp
  -- the bracket at the end
  have hlast : cut source = (A ++ (⟨.token .attrOpen, ['#', '[']⟩ ::
      (⟨.token .name, name⟩ :: listPieces es))) ++ ⟨.token .closeBracket, [']']⟩ :: Q := by
    rw [hopen]
    simp
  obtain ⟨v, hv, -, -, hstop⟩ := exists_token_of_cut hl hlast rfl
  rw [countIn_append, countIn_cons rfl, countIn_cons rfl, countIn_listPieces, hn,
    show countIn A + (n + 2 + 1 + 1) = countIn A + 1 + (n + 2 + 1) by omega] at hv
  refine ⟨_, (AttributeGroup.attributeAt l source (countIn A + 1) u).1, hparse, ?_, ?_, ?_, ?_, ?_⟩
  · dsimp only
    rw [countIn_groupPieces, hn]
    omega
  · dsimp only
    rw [stopAt_eq hv, hstop, hspan, groupPieces, extent_append, ← List.cons_append, extent_append _ [_]]
    simp [Reading.extent, Nat.add_assoc]
  · dsimp only
    rw [AttributeGroup.attributesFrom, if_pos (by omega), hu]
    dsimp only
    rw [if_pos hukind, hattribute]
    dsimp only
    rw [hcomma, AttributeGroup.attributesFrom, if_neg (by omega)]
  · rw [hattribute]
  · rw [hattribute]
    exact texts_argumentsOf _ es

/-! ## §2 Inscriptions -/

/-- A group of attributes as it is written, with the pieces it is cut into wherever it stands. -/
structure Inscription where
  text : Text
  pieces : List Piece
  solid : Solid text pieces
  block : Block pieces
  opens : ∃ R, pieces = ⟨.token .attrOpen, ['#', '[']⟩ :: R
  last : text.getLast? = some ']'
  docless : ∀ p ∈ pieces, p.kind ≠ .doc
  kinds : ∀ w ∈ pieces.filterMap wordOf, w.1 ∉ [TokenKind.openBrace, .closeBrace, .semicolon]

namespace Inscription

theorem head (I : Inscription) : ∃ t, I.text = '#' :: t := by
  obtain ⟨R, hR⟩ := I.opens
  rw [← I.solid.text, hR]
  exact ⟨_, rfl⟩

/-- No word of the group begins a statement that imports are collected from. -/
def Quiet (I : Inscription) : Prop := ∀ w ∈ I.pieces.filterMap wordOf, ¬ BeginsStatement w

/-- Wherever it stands, the group is read as one that has the property. -/
def Reads (I : Inscription) (p : AttributeGroup → Prop) : Prop :=
  ∀ {source : Text} {l : TokenSequence} {A Q : List Piece}, tokenize source = .ok l →
    cut source = A ++ (I.pieces ++ Q) → ∃ g, AttributeGroup.parse l source (countIn A) = some g ∧
      g.next = countIn A + countIn I.pieces ∧
      g.span = ⟨Reading.extent A, Reading.extent A + Text.width I.text⟩ ∧ p g

variable {args : Text}

theorem words_groupPieces {w : Word} (hw : w ∈ (groupPieces name es).filterMap wordOf) :
    w = (.name, name) ∨ w ∈ (es.flatMap ListEntry.pieces).filterMap wordOf ∨
      w.1 ∈ [TokenKind.attrOpen, .openParen, .closeParen, .closeBracket] := by
  simp only [groupPieces, listPieces, List.cons_append, List.filterMap_cons, List.filterMap_append,
    List.filterMap_nil, wordOf, List.mem_cons, List.mem_append, List.not_mem_nil, or_false] at hw
  obtain rfl | rfl | rfl | (hw | rfl) | rfl := hw
  · exact .inr (.inr (by decide))
  · exact .inl rfl
  · exact .inr (.inr (by decide))
  · exact .inr (.inl hw)
  · exact .inr (.inr (by decide))
  · exact .inr (.inr (by decide))

/-- The group of one attribute whose name and arguments are cut alike wherever they stand. -/
def ofEntries (name args : Text) (es : List ListEntry)
    (hname : Solid (name ++ ['(']) [⟨.token .name, name⟩, ⟨.token .openParen, ['(']⟩])
    (hargs : Solid (args ++ [')']) (es.flatMap ListEntry.pieces ++ [⟨.token .closeParen, [')']⟩]))
    (hes : Entries true es)
    (hbare : ∀ e ∈ es, ∀ p ∈ e.pieces, p.kind = .blank ∨ ∃ kind, p.kind = .token kind)
    (hkinds : ∀ w ∈ (es.flatMap ListEntry.pieces).filterMap wordOf,
      w.1 ∉ [TokenKind.openBrace, .closeBrace, .semicolon]) : Inscription where
  text := ['#', '['] ++ (name ++ ['(']) ++ (args ++ [')'] ++ [']'])
  pieces := groupPieces name es
  solid := by
    have hsolid := (solid_attrOpen.append hname).append (hargs.append (solid_stop (c := ']') rfl))
    simpa [groupPieces, listPieces] using hsolid
  block := block_groupPieces (block_of_entries hes hbare)
  opens := ⟨_, rfl⟩
  last := by
    rw [List.getLast?_append, List.getLast?_concat]
    rfl
  docless := by
    intro p hp
    simp only [groupPieces, listPieces, List.cons_append, List.mem_cons, List.mem_append,
      List.not_mem_nil, or_false] at hp
    obtain rfl | rfl | rfl | (hp | rfl) | rfl := hp
    iterate 3 simp
    · obtain ⟨e, he, hp⟩ := List.mem_flatMap.mp hp
      obtain hkind | ⟨kind, hkind⟩ := hbare e he p hp <;> simp [hkind]
    iterate 2 simp
  kinds := by
    intro w hw
    obtain rfl | hw | hw := words_groupPieces hw
    · simp
    · exact hkinds w hw
    · revert hw
      generalize w.1 = kind
      cases kind <;> decide

variable {hname : Solid (name ++ ['(']) [⟨.token .name, name⟩, ⟨.token .openParen, ['(']⟩]}
  {hargs : Solid (args ++ [')']) (es.flatMap ListEntry.pieces ++ [⟨.token .closeParen, [')']⟩])}
  {hes : Entries true es} {hbare : ∀ e ∈ es, ∀ p ∈ e.pieces, p.kind = .blank ∨ ∃ kind, p.kind = .token kind}
  {hkinds : ∀ w ∈ (es.flatMap ListEntry.pieces).filterMap wordOf,
    w.1 ∉ [TokenKind.openBrace, .closeBrace, .semicolon]}

/-- It is read as the attribute with these arguments. -/
theorem reads_ofEntries : (ofEntries name args es hname hargs hes hbare hkinds).Reads
    fun g => ∃ a, g.attributes = [a] ∧ a.name = name ∧
      a.arguments.map Argument.text = es.map fun e => e.item.flatMap Piece.text := by
  intro source l A Q hl hcut
  obtain ⟨g, a, hg, hnext, hspan, hattributes, hname', htexts⟩ := group_of_cut hes (block_of_entries hes hbare) hl hcut
  refine ⟨g, hg, hnext, ?_, a, hattributes, hname', htexts⟩
  rw [hspan, ← (ofEntries name args es hname hargs hes hbare hkinds).solid.text]
  rfl

theorem quiet_ofEntries (hquiet : ¬ BeginsStatement (.name, name))
    (h : ∀ w ∈ (es.flatMap ListEntry.pieces).filterMap wordOf, ¬ BeginsStatement w) :
    (ofEntries name args es hname hargs hes hbare hkinds).Quiet := by
  intro w hw
  obtain rfl | hw | hw := words_groupPieces hw
  · exact hquiet
  · exact h w hw
  · refine not_beginsStatement_of_kind fun hkind => ?_
    rw [hkind] at hw
    revert hw
    decide

end Inscription

/-! ## §3 Quoted texts -/

/-- The text between quotes, with a backslash before each quote in it. -/
def quote (t : Text) : Text := '\'' :: (Text.replace '\'' "\\'" t ++ "'")

/-- A quoted text that can be read is one piece. -/
theorem solid_quote {t : Text} {e : Expression} (h : Expression.parse (quote t) = .ok e) :
    Solid (quote t) [⟨.token .string, quote t⟩] := by
  obtain ⟨v, hv⟩ := Expression.readSingle_of_parse h
  obtain ⟨q, hq, hlength⟩ := readSingle_eq_some hv
  rw [List.append_nil] at hq
  rw [quote, hq]
  exact solid_single hlength

theorem item_string (text : Text) : Item [⟨.token .string, text⟩] :=
  .one (@Thing.token _ .string rfl rfl rfl (by decide))

/-- The entry that is a quoted text after a comma. -/
def quoteEntry (t : Text) : ListEntry :=
  ⟨[⟨.token .comma, [',']⟩, ⟨.blank, [' ']⟩], [⟨.token .string, quote t⟩]⟩

theorem solid_comma : Solid [',', ' '] [⟨.token .comma, [',']⟩, ⟨.blank, [' ']⟩] :=
  (solid_stop (c := ',') rfl).append (solid_stop (c := ' ') rfl)

theorem bare_quoteEntry (t : Text) :
    ∀ p ∈ (quoteEntry t).pieces, p.kind = .blank ∨ ∃ kind, p.kind = .token kind := by
  simp [ListEntry.pieces, quoteEntry]

theorem entries_quoteEntry (t : Text) : Entries false [quoteEntry t] :=
  .cons (by simp [quoteEntry, Commas, kindsIn, wordOf]) (by simp [quoteEntry, kindsIn, wordOf])
    (item_string _) (.nil _)

/-- An attribute says what its arguments do. -/
theorem Attribute.gather_congr {imports : Imports} {as bs : List Argument}
    (h : as.map (fun a => Expression.parse a.text) = bs.map fun b => Expression.parse b.text)
    (className method : Option Text) (position : Nat) :
    gather imports className method position as = gather imports className method position bs := by
  induction as generalizing bs className method position with
  | nil =>
    obtain rfl := List.map_eq_nil_iff.mp h.symm
    rfl
  | cons a as ih =>
    obtain ⟨b, bs, rfl, hb, hbs⟩ := List.map_eq_cons_iff.mp h.symm
    unfold gather
    rw [hb]
    simp only [ih hbs.symm]

theorem Attribute.parse_of_gather {imports : Imports} {as : List Argument}
    {className method : Option Text} {position : Nat} {x : Option Text × Option Text}
    (h : gather imports className method position as = some x) :
    ∀ a ∈ as, ∃ e, Expression.parse a.text = .ok e := by
  induction as generalizing className method position with
  | nil => simp
  | cons a as ih =>
    intro b hb
    unfold gather at h
    cases he : Expression.parse a.text with
    | error err => simp [he] at h
    | ok e =>
      simp only [he] at h
      obtain rfl | hb := List.mem_cons.mp hb
      · exact ⟨e, he⟩
      · repeat' split at h
        all_goals first | exact ih h b hb | cases h

end Crosslink.Source

namespace Crosslink.Production

open Source Source.TokenSequence

variable {imports : Imports} {r : BackReference}

/-! ## §4 The groups that name tests -/

/-- The arguments that name a test. -/
def writtenArguments (r : BackReference) : List Text := quote r.container :: (r.member.map quote).toList

/-- The attribute that is written for a test. -/
def written (r : BackReference) : Attribute where
  name := testedByName
  nameSpan := Span.point 0
  span := Span.point 0
  arguments := (writtenArguments r).map fun text => ⟨Span.point 0, text⟩

/-- The attribute that is written for a test names it where it is read back. -/
def ReadsBack (imports : Imports) (r : BackReference) : Prop := (written r).testedBy imports = some r

instance : Decidable (ReadsBack imports r) := inferInstanceAs (Decidable (_ = _))

theorem testedBy_congr {a b : Attribute}
    (h : a.arguments.map Argument.text = b.arguments.map Argument.text) :
    a.testedBy imports = b.testedBy imports := by
  have hparse := congrArg (List.map Expression.parse) h
  rw [List.map_map, List.map_map] at hparse
  simp only [Attribute.testedBy, Attribute.classArguments, Attribute.gather_congr hparse]

/-- Each argument that is written for a test that is read back is one quoted text. -/
theorem solid_argument (h : ReadsBack imports r) {t : Text} (ht : quote t ∈ writtenArguments r) :
    Solid (quote t) [⟨.token .string, quote t⟩] := by
  unfold ReadsBack Attribute.testedBy Attribute.classArguments at h
  obtain ⟨x, hx, -⟩ := Option.bind_eq_some_iff.mp h
  obtain ⟨y, hy, -⟩ := Option.bind_eq_some_iff.mp hx
  obtain ⟨e, he⟩ := Attribute.parse_of_gather hy _ (List.mem_map_of_mem ht)
  exact solid_quote he

/-- The arguments that name a test, as pieces. -/
def testEntries (r : BackReference) : List ListEntry :=
  ⟨[], [⟨.token .string, quote r.container⟩]⟩ :: (r.member.map quoteEntry).toList

theorem entries_testEntries (r : BackReference) : Entries true (testEntries r) := by
  unfold testEntries
  refine .cons (by simp [Commas, kindsIn]) (by simp) (item_string _) ?_
  cases r.member with
  | none => exact .nil _
  | some m => exact entries_quoteEntry m

theorem texts_testEntries (r : BackReference) :
    (testEntries r).map (fun e => e.item.flatMap Piece.text) = writtenArguments r := by
  unfold testEntries writtenArguments
  cases r.member <;> simp [quoteEntry]

theorem words_testEntries (r : BackReference) :
    ∀ w ∈ ((testEntries r).flatMap ListEntry.pieces).filterMap wordOf,
      w.1 = .string ∨ w.1 = .comma := by
  intro w hw
  unfold testEntries at hw
  cases hm : r.member with
  | none =>
    simp [hm, wordOf, ListEntry.pieces] at hw
    exact .inl (by rw [hw])
  | some m =>
    simp [hm, wordOf, ListEntry.pieces, quoteEntry] at hw
    obtain rfl | rfl | rfl := hw <;> simp

theorem bare_testEntries (r : BackReference) :
    ∀ e ∈ testEntries r, ∀ p ∈ e.pieces, p.kind = .blank ∨ ∃ kind, p.kind = .token kind := by
  unfold testEntries
  cases r.member with
  | none => simp [ListEntry.pieces]
  | some m =>
    simp only [Option.map_some, Option.toList_some, List.forall_mem_cons]
    exact ⟨by simp [ListEntry.pieces], bare_quoteEntry m, by simp⟩

/-- The arguments that name a test, as text. -/
def testText (r : BackReference) : Text :=
  quote r.container ++ (r.member.map fun m => ", " ++ quote m).getD []

theorem solid_testText (h : ReadsBack imports r) : Solid (testText r ++ [')'])
    ((testEntries r).flatMap ListEntry.pieces ++ [⟨.token .closeParen, [')']⟩]) := by
  have hlast : Solid [')'] [⟨.token .closeParen, [')']⟩] := solid_stop (c := ')') rfl
  have hcontainer := solid_argument h List.mem_cons_self
  unfold testText testEntries
  cases hm : r.member with
  | none => simpa [ListEntry.pieces] using hcontainer.append hlast
  | some m =>
    have hmember := solid_argument h (t := m) (by simp [writtenArguments, hm])
    have hsolid := hcontainer.append ((solid_comma.append hmember).append hlast)
    simpa [ListEntry.pieces, quoteEntry] using hsolid

/-- The group that is written for a test. -/
def inscription (h : ReadsBack imports r) : Inscription :=
  .ofEntries testedByName (testText r) (testEntries r)
    (solid_opening (c := 'T') (n := "estedBy".toList) (by decide)
      (show qualifiedLength "estedBy".toList = "estedBy".toList.length by decide))
    (solid_testText h) (entries_testEntries r) (bare_testEntries r) fun w hw => by
      obtain hkind | hkind := words_testEntries r w hw <;> simp [hkind]

theorem text_inscription (h : ReadsBack imports r) : (inscription h).text = render r := by
  simp only [inscription, Inscription.ofEntries, testText, render]
  cases r.member <;> simp [quote]

theorem quiet_inscription (h : ReadsBack imports r) : (inscription h).Quiet := by
  refine Inscription.quiet_ofEntries ?_ fun w hw => not_beginsStatement_of_kind fun hkind => ?_
  · rintro ⟨-, h | h⟩ <;> revert h <;> decide
  · obtain h | h := words_testEntries r w hw <;> rw [hkind] at h <;> cases h

/-- Wherever it stands, the group names the test. -/
theorem reads_inscription (h : ReadsBack imports r) :
    (inscription h).Reads fun g => testsNamed imports [g] = [r] := by
  intro source l A Q hl hcut
  obtain ⟨g, hg, hnext, hspan, a, hattributes, hname, htexts⟩ :=
    Inscription.reads_ofEntries hl hcut
  have htest : a.testedBy imports = some r := by
    refine (testedBy_congr ?_).trans h
    rw [htexts, texts_testEntries, written, List.map_map]
    exact (List.map_id _).symm
  have hnamed : a.isNamed testedByName = true := by
    rw [Attribute.isNamed, Attribute.shortName, hname]
    decide
  exact ⟨g, hg, hnext, hspan, by simp [testsNamed, hattributes, hnamed, htest]⟩

/-- The groups that are written for some tests. -/
theorem exists_inscriptions {rs : List BackReference} (h : ∀ r ∈ rs, ReadsBack imports r) :
    ∃ is : List Inscription, is.map Inscription.text = rs.map render ∧ (∀ I ∈ is, I.Quiet) ∧
      List.Forall₂ (fun I r => I.Reads fun g => testsNamed imports [g] = [r]) is rs := by
  induction rs with
  | nil => exact ⟨[], rfl, by simp, .nil⟩
  | cons r rs ih =>
    obtain ⟨is, htexts, hquiet, hreads⟩ := ih fun d hd => h d (List.mem_cons_of_mem _ hd)
    have hr := h r List.mem_cons_self
    refine ⟨inscription hr :: is, ?_, ?_, .cons (reads_inscription hr) hreads⟩
    · rw [List.map_cons, List.map_cons, text_inscription, htexts]
    · exact List.forall_mem_cons.mpr ⟨quiet_inscription hr, hquiet⟩

end Crosslink.Production
