import Crosslink.Proofs.Canonical
import Crosslink.Proofs.Composing
import Crosslink.Proofs.Engraving
import Crosslink.Proofs.Tallies

/-!
# Tests that can be named

The group that names a test is written with a backslash before each quote and none before a backslash,
and it is cut, parsed and split at double colons when it is read. The tests that come back are those
whose texts the missing backslashes leave alone. That no other test comes back by accident, its quotes
ending early and its rest read as further arguments or attributes, is a matter of marks: whatever the
list is cut into, an argument that means all of a text needs its quotes, and the comma or parenthesis
after them, where they were written.

* §1 `Plain`, the texts that are read as they are written, and `SingleQuoted.plain_or_lt`.
* §2 `eq_quote_of_countP`, where a quoted text ends.
* §3 `ListAt`, a list in parentheses as pieces.
* §4 `exists_class_argument` and `plain_of_later`, what the arguments of such a list mean.
* §5 `Survives` and `readBack_exact`.
-/

namespace Crosslink.Source

open Expression

variable {p : Char → Bool} {t u v w : Text}

/-! ## §1 Plain texts -/

/-- Texts in which every backslash stands before a character that it can stand before for itself. -/
structure Plain (t : Text) : Prop where
  slashes : ¬ ['\\', '\\'] <:+: t
  quotes : ¬ ['\\', '\''] <:+: t
  last : t.getLast? ≠ some '\\'

/-- The text with a backslash before each quote in it. -/
def escaped (t : Text) : Text := Text.replace '\'' "\\'" t

theorem escaped_quote (t : Text) : escaped ('\'' :: t) = '\\' :: '\'' :: escaped t := rfl

theorem escaped_cons {c : Char} (h : c ≠ '\'') (t : Text) : escaped (c :: t) = c :: escaped t := by
  simp [escaped, Text.replace, h]

theorem plain_nil : Plain [] := by
  constructor <;> simp

theorem plain_cons {c : Char} (h : c ≠ '\\') : Plain (c :: t) ↔ Plain t := by
  have hwithin : ∀ d, ['\\', d] <:+: c :: t ↔ ['\\', d] <:+: t := by
    intro d
    rw [List.infix_cons_iff, List.cons_prefix_cons]
    simp [Ne.symm h]
  have hlast : (c :: t).getLast? = some '\\' ↔ t.getLast? = some '\\' := by
    cases t with
    | nil => simp [h]
    | cons d t => rw [List.getLast?_cons_cons]
  constructor
  · rintro ⟨hslashes, hquotes, hend⟩
    exact ⟨mt (hwithin _).mpr hslashes, mt (hwithin _).mpr hquotes, mt hlast.mpr hend⟩
  · rintro ⟨hslashes, hquotes, hend⟩
    exact ⟨mt (hwithin _).mp hslashes, mt (hwithin _).mp hquotes, mt hlast.mp hend⟩

theorem plain_slash {d : Char} :
    Plain ('\\' :: d :: t) ↔ d ≠ '\\' ∧ d ≠ '\'' ∧ Plain (d :: t) := by
  have hwithin : ∀ e, ['\\', e] <:+: '\\' :: d :: t ↔ e = d ∨ ['\\', e] <:+: d :: t := by
    intro e
    rw [List.infix_cons_iff, List.cons_prefix_cons, List.cons_prefix_cons]
    simp
  constructor
  · rintro ⟨hslashes, hquotes, hend⟩
    rw [hwithin, not_or] at hslashes hquotes
    exact ⟨Ne.symm hslashes.1, Ne.symm hquotes.1, hslashes.2, hquotes.2, by
      rwa [List.getLast?_cons_cons] at hend⟩
  · rintro ⟨hslash, hquote, hslashes, hquotes, hend⟩
    refine ⟨?_, ?_, by rwa [List.getLast?_cons_cons]⟩
    · rw [hwithin, not_or]
      exact ⟨Ne.symm hslash, hslashes⟩
    · rw [hwithin, not_or]
      exact ⟨Ne.symm hquote, hquotes⟩

theorem not_plain_slash : ¬ Plain ['\\'] := fun h => h.last rfl

/-- A plain text is read back. -/
theorem Plain.singleQuoted (h : Plain t) : SingleQuoted (escaped t) t := by
  induction t with
  | nil => exact .nil
  | cons c t ih =>
    by_cases hquote : c = '\''
    · subst hquote
      exact .quote (ih ((plain_cons (by decide)).mp h))
    · by_cases hslash : c = '\\'
      · subst hslash
        cases t with
        | nil => exact absurd h not_plain_slash
        | cons d t =>
          obtain ⟨hd, hd', hrest⟩ := plain_slash.mp h
          have hread := ih hrest
          rw [escaped_cons hd'] at hread
          rw [escaped_cons hquote, escaped_cons hd']
          exact .lone hd hd' hread
      · rw [escaped_cons hquote]
        exact .plain hslash hquote (ih ((plain_cons hslash).mp h))

theorem exists_of_escaped {c : Char} (h : escaped t = c :: w) :
    (∃ u, t = '\'' :: u ∧ c = '\\' ∧ w = '\'' :: escaped u) ∨
      (c ≠ '\'' ∧ ∃ u, t = c :: u ∧ w = escaped u) := by
  cases t with
  | nil => cases h
  | cons d u =>
    by_cases hd : d = '\''
    · subst hd
      obtain ⟨rfl, rfl⟩ := List.cons.inj h
      exact .inl ⟨u, rfl, rfl, rfl⟩
    · rw [escaped_cons hd] at h
      obtain ⟨rfl, rfl⟩ := List.cons.inj h
      exact .inr ⟨hd, u, rfl, rfl⟩

/-- What is read of a text is the text, which is plain then, or it is shorter: each time two backslashes
are read as one, a character is lost. -/
theorem SingleQuoted.plain_or_lt (h : SingleQuoted (escaped t) v) :
    v = t ∧ Plain t ∨ v.length < t.length := by
  generalize hw : escaped t = w at h
  induction h generalizing t with
  | nil =>
    cases t with
    | nil => exact .inl ⟨rfl, plain_nil⟩
    | cons c t =>
      by_cases hc : c = '\''
      · subst hc
        cases hw
      · rw [escaped_cons hc] at hw
        cases hw
  | @backslash w v rest ih =>
    obtain ⟨u, -, -, hu⟩ | ⟨-, u, rfl, hu⟩ := exists_of_escaped hw
    · cases (List.cons.inj hu).1
    · obtain ⟨x, -, -, rfl⟩ | ⟨-, x, rfl, rfl⟩ := exists_of_escaped hu.symm
      · -- after two backslashes the quote would end the text
        cases rest with
        | plain _ quote => exact absurd rfl quote
      · obtain ⟨rfl, -⟩ | hlt := ih rfl
        · exact .inr (by simp)
        · exact .inr (by simp only [List.length_cons]; omega)
  | @quote w v rest ih =>
    obtain ⟨u, rfl, -, hu⟩ | ⟨-, u, rfl, hu⟩ := exists_of_escaped hw
    · obtain ⟨rfl, hplain⟩ | hlt := ih (List.cons.inj hu).2.symm
      · exact .inl ⟨rfl, (plain_cons (by decide)).mpr hplain⟩
      · exact .inr (Nat.succ_lt_succ hlt)
    · obtain ⟨x, -, hx, -⟩ | ⟨hx, -⟩ := exists_of_escaped hu.symm
      · cases hx
      · exact absurd rfl hx
  | @lone d w v slash quote rest ih =>
    obtain ⟨u, -, -, hu⟩ | ⟨-, u, rfl, hu⟩ := exists_of_escaped hw
    · exact absurd (List.cons.inj hu).1 quote
    · obtain ⟨rfl, hplain⟩ | hlt := ih hu.symm
      · obtain ⟨x, -, hx, -⟩ | ⟨-, x, rfl, -⟩ := exists_of_escaped hu.symm
        · exact absurd hx slash
        · exact .inl ⟨rfl, plain_slash.mpr ⟨slash, quote, hplain⟩⟩
      · exact .inr (Nat.succ_lt_succ hlt)
  | @plain c w v slash quote rest ih =>
    obtain ⟨u, -, hc, -⟩ | ⟨-, u, rfl, rfl⟩ := exists_of_escaped hw
    · exact absurd hc slash
    · obtain ⟨rfl, hplain⟩ | hlt := ih rfl
      · exact .inl ⟨rfl, (plain_cons slash).mpr hplain⟩
      · exact .inr (Nat.succ_lt_succ hlt)

/-- A text that is written in quotes and read is one quoted text. -/
theorem parse_quote_iff {e : Expression} :
    parse (quote t) = .ok e ↔ ∃ v, SingleQuoted (escaped t) v ∧ e = ⟨none, [.literal v]⟩ := by
  have hderived : ∀ {v : Text}, SingleQuoted (escaped t) v →
      parse (quote t) = .ok ⟨none, [.literal v]⟩ := fun hv =>
    parse_of_spelled ⟨[], quote t, [], by simp [Gap], by simp [Gap], by simp,
      .bare (.one (.single hv))⟩
  constructor
  · intro h
    obtain ⟨v, hread⟩ := readSingle_of_parse h
    obtain ⟨w, hw, hv⟩ := singleQuoted_of_readSingle hread
    obtain ⟨rfl, -⟩ := List.append_inj' hw rfl
    exact ⟨v, hv, Except.ok.inj (h.symm.trans (hderived hv))⟩
  · rintro ⟨v, hv, rfl⟩
    exact hderived hv

/-- A quoted text that means a text at least as long means that text, and it is plain. -/
theorem eq_of_parse_quote {e : Expression} (h : parse (quote t) = .ok e) {v : Text}
    (hv : e.literal? = some v) (hlength : t.length ≤ v.length) : v = t ∧ Plain t := by
  obtain ⟨x, hx, rfl⟩ := parse_quote_iff.mp h
  obtain rfl : x = v := by simpa [literal?] using hv
  exact hx.plain_or_lt.resolve_right (Nat.not_lt.mpr hlength)

/-! ## §2 Where a quoted text ends -/

theorem countP_escaped (hp : p '\\' = false) (t : Text) : (escaped t).countP p = t.countP p := by
  induction t with
  | nil => rfl
  | cons c t ih =>
    by_cases hc : c = '\''
    · subst hc
      simp [escaped_quote, List.countP_cons, hp, ih]
    · rw [escaped_cons hc, List.countP_cons, List.countP_cons, ih]

theorem countP_quote (hp : p '\\' = false) (t : Text) :
    (quote t).countP p = t.countP p + if p '\'' then 2 else 0 := by
  change ('\'' :: (escaped t ++ "'")).countP p = _
  rw [List.countP_cons, List.countP_append, countP_escaped hp]
  change _ + List.countP p ['\''] + _ = _
  rw [List.countP_singleton]
  split <;> omega

/-- A text that goes on after a quoted text with a mark `d`, cut where all quotes of the quoted text are
before the cut, and no mark `d` that it has not. The cut is at its end. -/
theorem eq_quote_of_countP {d : Char} {x y z : Text} (h : x ++ y = quote t ++ d :: z)
    (hd : d ≠ '\'' ∧ d ≠ '\\') (hquotes : t.countP isQuote + 2 ≤ x.countP isQuote)
    (hmarks : x.countP (· == d) ≤ t.countP (· == d)) : x = quote t := by
  obtain ⟨w, hw, -⟩ | ⟨w, rfl, hw⟩ := List.append_eq_append_iff.mp h
  · cases w with
    | nil => rw [hw, List.append_nil]
    | cons c w =>
      -- the closing quote is after the cut
      have hlast : (c :: w).getLast? = some '\'' := by
        rw [← getLast_of_suffix ⟨x, hw.symm⟩ (List.cons_ne_nil c w)]
        exact List.getLast?_concat (l := '\'' :: escaped t)
      have hafter : 0 < (c :: w).countP isQuote :=
        List.countP_pos_iff.mpr ⟨'\'', List.mem_of_getLast? hlast, rfl⟩
      have hall := congrArg (List.countP isQuote) hw
      rw [countP_quote rfl, List.countP_append, if_pos (show isQuote '\'' = true from rfl)] at hall
      omega
  · cases w with
    | nil => rw [List.append_nil]
    | cons c w =>
      obtain rfl := (List.cons.inj hw).1
      have hslash : ('\\' == d) = false := beq_eq_false_iff_ne.mpr hd.2.symm
      rw [List.countP_append, countP_quote (p := (· == d)) hslash, List.countP_cons,
        if_pos (beq_self_eq_true d)] at hmarks
      omega

/-! ## §3 Lists in parentheses -/

open TokenSequence

variable {source : Text} {l : TokenSequence} {A B Q R S : List Piece} {q q' : Piece}
  {es : List ListEntry} {i j k o : Nat} {a : Attribute} {g : AttributeGroup}

theorem eq_of_stopKind {c : Char} : (stopKind c = some (.token .comma) → c = ',') ∧
    (stopKind c = some (.token .closeParen) → c = ')') ∧
    (stopKind c = some (.token .openParen) → c = '(') := by
  refine ⟨fun h => ?_, fun h => ?_, fun h => ?_⟩
  all_goals
    unfold stopKind at h
    split_ifs at h <;> first | assumption | cases h

/-- Commas and parentheses are written so. -/
theorem text_of_stop {kind : TokenKind} (h : q :: R = cutCode t) (hq : q.kind = .token kind)
    (hkind : kind ∈ [TokenKind.comma, .closeParen, .openParen]) :
    ∃ c, q = ⟨.token kind, [c]⟩ ∧ stopKind c = some (.token kind) := by
  cases t with
  | nil => simp [cutCode] at h
  | cons c cs =>
    rw [cutCode_cons] at h
    obtain ⟨rfl, -⟩ := List.cons.inj h
    obtain ⟨hstop, hlen⟩ | ⟨-, -, hm⟩ := measure_of_sealing hq (by
      simp only [List.mem_cons, List.not_mem_nil, or_false] at hkind
      rcases hkind with rfl | rfl | rfl <;> rfl)
    · refine ⟨c, ?_, hstop⟩
      dsimp only at hq
      rw [hlen, hq]
      rfl
    · rw [hm] at hq
      obtain rfl : TokenKind.attrOpen = kind := PieceKind.token.inj hq
      simp at hkind

/-- The list that a parenthesis opens, as pieces. -/
structure ListAt (l : TokenSequence) (source : Text) (k : Nat) (A : List Piece) (es : List ListEntry)
    (ps Q : List Piece) : Prop where
  cut : cut source = A ++ ⟨.token .openParen, ['(']⟩ ::
    (es.flatMap ListEntry.pieces ++ ps ++ ⟨.token .closeParen, [')']⟩ :: Q)
  place : countIn A = k
  entries : Entries true es
  commas : Commas ps
  texts : (l.arguments source k).map Argument.text = es.map fun e => e.item.flatMap Piece.text

theorem exists_list (hl : tokenize source = .ok l) (hkind : l.kindAt k = some .openParen) :
    ∃ A es ps Q, ListAt l source k A es ps Q ∧
      l.partnerAt k = some (k + 1 + countIn (es.flatMap ListEntry.pieces ++ ps)) := by
  have hn := nested_of_tokenize hl
  obtain ⟨t, ht, hopen⟩ := Option.map_eq_some_iff.mp hkind
  obtain ⟨j, hj⟩ := hn.partnered k t ht (.inl (by rw [hopen]; rfl))
  have hpartner := partnerAt_eq_some.mpr ⟨t, ht, hj⟩
  obtain ⟨A, p, M, q, Q, hcut, hplace, hclose, hb⟩ :=
    exists_bracket hl hpartner (hn.lt_partner ht (by rw [hopen]; rfl) hj)
  obtain ⟨o, d, hp, hq, hopens, hcloses, openers, hopeners, hmem⟩ := hb.kinds
  have ho : o = .openParen := by
    have := kindAt_of_cut hl hcut hp
    rw [hplace, hkind] at this
    exact (Option.some.inj this).symm
  subst ho
  have hd : d = .closeParen := by
    cases d <;> simp [TokenKind.closes] at hopeners <;> subst hopeners <;> simp at hmem
    rfl
  subst hd
  obtain ⟨c, rfl, hc⟩ := text_of_stop (cut_suffix_of_ne_markup hcut (by simp [hp])) hp (by simp)
  obtain rfl := eq_of_stopKind.2.2 hc
  have hcut' : cut source = (A ++ ⟨.token .openParen, ['(']⟩ :: M) ++ q :: Q := by simpa using hcut
  obtain ⟨c, rfl, hc⟩ := text_of_stop (cut_suffix_of_ne_markup hcut' (by simp [hq])) hq (by simp)
  obtain rfl := eq_of_stopKind.2.1 hc
  obtain ⟨es, ps, rfl, hes, hps⟩ := hb.block.exists_entries _ (Nat.le_refl _) true (by simp)
  refine ⟨A, es, ps, Q, ⟨hcut, hplace, hes, hps, ?_⟩, by rw [hpartner, hclose]⟩
  rw [← hplace, arguments_of_cut hes hps hl hcut hb, texts_argumentsOf]

/-- The arguments of an attribute are those of the list after its name. -/
theorem arguments_attributeAt (l : TokenSequence) (source : Text) (k : Nat) (t : Token) :
    (AttributeGroup.attributeAt l source k t).1.arguments =
      if l.isKind (k + 1) .openParen then l.arguments source (k + 1) else [] := by
  unfold AttributeGroup.attributeAt
  split
  · dsimp only
    split <;> rfl
  · rfl

/-- Of the attributes of a group the first is read at the first token, and if a list comes after that
one the others are read after the list. -/
theorem exists_place_of_attribute (hn : l.Nested) (hg : AttributeGroup.parse l source o = some g)
    (hname : l.kindAt (o + 1) = some .name) (hkind : l.kindAt (o + 2) = some .openParen)
    (hpartner : l.partnerAt (o + 2) = some j) (ha : a ∈ g.attributes) :
    ∃ k t, (k = o + 1 ∨ j < k) ∧ l.tokens[k]? = some t ∧
      a = (AttributeGroup.attributeAt l source k t).1 := by
  obtain ⟨close, hgroup⟩ := exists_groupAt hn hg
  obtain ⟨t, ht, hfirst⟩ := Option.map_eq_some_iff.mp hname
  rw [hgroup.attributes, AttributeGroup.attributesFrom] at ha
  split at ha
  · rw [ht] at ha
    simp only [hfirst, if_true] at ha
    obtain rfl | ha := List.mem_cons.mp ha
    · exact ⟨o + 1, t, .inl rfl, ht, rfl⟩
    · obtain ⟨k, u, hk, -, hu, rfl⟩ := exists_of_mem_attributesFrom ha
      refine ⟨k, u, .inr ?_, hu, rfl⟩
      have hnext : j + 1 ≤ (AttributeGroup.attributeAt l source (o + 1) t).2 := by
        unfold AttributeGroup.attributeAt
        rw [if_pos (by rw [isKind, hkind]; rfl), hpartner]
        exact Nat.le_max_left _ _
      have := AttributeGroup.le_nextComma l close (AttributeGroup.attributeAt l source (o + 1) t).2
      omega
  · cases ha

theorem countP_items_le (es : List ListEntry) :
    (es.flatMap fun e => e.item.flatMap Piece.text).countP p ≤
      ((es.flatMap ListEntry.pieces).flatMap Piece.text).countP p := by
  induction es with
  | nil => exact Nat.le_refl _
  | cons e es ih =>
    simp only [List.flatMap_cons, List.flatMap_append, ListEntry.pieces, List.countP_append]
    omega

theorem sep_of_mem {fresh : Bool} (h : Entries fresh es) {e : ListEntry} (he : e ∈ es.drop 1) :
    Commas e.sep ∧ kindsIn e.sep ≠ [] := by
  induction h with
  | nil => cases he
  | cons commas apart item rest ih =>
    cases rest with
    | nil => cases he
    | cons commas' apart' item' rest' =>
      obtain rfl | he := List.mem_cons.mp he
      · exact ⟨commas', apart' rfl⟩
      · exact ih he

/-- Before each item of a list but the first there is a comma. -/
theorem exists_comma {e₀ e : ListEntry} (h : Entries true (e₀ :: es)) (he : e ∈ es)
    (hcode : es.flatMap ListEntry.pieces ++ R = cutCode t) :
    ∃ x y z : Text, (es.flatMap ListEntry.pieces).flatMap Piece.text =
      x ++ ',' :: (y ++ (e.item.flatMap Piece.text ++ z)) := by
  obtain ⟨hcommas, hkinds⟩ := sep_of_mem h he
  obtain ⟨es₁, es₂, rfl⟩ := List.append_of_mem he
  obtain ⟨q, hq, hword⟩ : ∃ q ∈ e.sep, wordOf q ≠ none := by
    by_contra hnone
    simp only [not_exists, not_and, not_not] at hnone
    exact hkinds (by rw [kindsIn, List.filterMap_eq_nil_iff.mpr hnone]; rfl)
  obtain ⟨kind, hkind⟩ := (token_or_none q).resolve_right hword
  obtain ⟨s₁, s₂, hsep⟩ := List.append_of_mem hq
  obtain rfl : kind = .comma := hcommas kind (by
    rw [hsep, kindsIn_append, kindsIn_of_token hkind]
    simp)
  have hsplit : cutCode t = (es₁.flatMap ListEntry.pieces ++ s₁) ++
      q :: (s₂ ++ e.item ++ es₂.flatMap ListEntry.pieces ++ R) := by
    rw [← hcode]
    simp [ListEntry.pieces, hsep]
  obtain ⟨c, rfl, hc⟩ := text_of_stop (cutCode_suffix hsplit) hkind (by simp)
  obtain rfl := eq_of_stopKind.1 hc
  refine ⟨(es₁.flatMap ListEntry.pieces ++ s₁).flatMap Piece.text, s₂.flatMap Piece.text,
    (es₂.flatMap ListEntry.pieces).flatMap Piece.text, ?_⟩
  simp [ListEntry.pieces, hsep]

/-- A list that begins with a quote begins with an argument that does. -/
theorem exists_first_entry (hcode : cutCode ('\'' :: t) = es.flatMap ListEntry.pieces ++ R)
    (hends : ∀ q ∈ cutCode ('\'' :: t), ∀ d, q.kind ≠ .broken d) (hes : Entries true es)
    (hne : es ≠ []) :
    ∃ e es', es = e :: es' ∧ e.pieces = e.item ∧ ∃ x, e.item.flatMap Piece.text = '\'' :: x := by
  have hfirst : (measure '\'' t).1 = .token .string := by
    have hkind : ∀ d, (measure '\'' t).1 ≠ .broken d := fun d =>
      hends ⟨(measure '\'' t).1, '\'' :: t.take (measure '\'' t).2⟩ (by rw [cutCode_cons]; simp) d
    revert hkind
    fun_cases measure '\'' t <;> intro hkind <;> simp_all [isAsciiBlank]
  rw [cutCode_cons] at hcode
  obtain ⟨e, es, rfl⟩ := List.exists_cons_of_ne_nil hne
  cases hes with
  | cons commas apart item rest =>
    rw [List.flatMap_cons, ListEntry.pieces, List.append_assoc, List.append_assoc] at hcode
    have hsep : e.sep = [] := by
      cases hs : e.sep with
      | nil => rfl
      | cons q s =>
        rw [hs, List.cons_append] at hcode
        obtain ⟨rfl, -⟩ := List.cons.inj hcode
        have := commas .string (by rw [hs, kindsIn_of_token hfirst]; simp)
        cases this
    refine ⟨e, es, rfl, by rw [ListEntry.pieces, hsep, List.nil_append], ?_⟩
    obtain ⟨q, I, kind, hI, -⟩ := item.first
    rw [hsep, hI, List.nil_append, List.cons_append] at hcode
    obtain ⟨rfl, -⟩ := List.cons.inj hcode
    exact ⟨_, by rw [hI]; rfl⟩

/-! ## §4 Arguments in their places -/

/-- What is read of a text that begins with a quote begins with a quoted text. -/
theorem exists_literal {e : Expression} (h : parse ('\'' :: t) = .ok e) :
    e.label = none ∧ ∃ v as, e.atoms = .literal v :: as := by
  obtain ⟨g, u, g', hg, -, ht, hu⟩ := spelled_of_parse h
  have hident : isIdentChar '\'' = false := isIdentChar_of_mark (by simp)
  have hnil : g = [] := by
    cases g with
    | nil => rfl
    | cons c g =>
      obtain rfl := (List.cons.inj ht).1
      exact absurd (hg '\'' (by simp)) (by decide)
  rw [hnil, List.nil_append] at ht
  have hatom : ∀ {x y : Text} {a : Atom}, a.Derived x → '\'' :: t = x ++ y → ∃ v, a = .literal v := by
    intro x y a ha hx
    cases ha with
    | single body => exact ⟨_, rfl⟩
    | double body => exact ⟨_, rfl⟩
    | constant name =>
      obtain ⟨c, cs, rfl, hc⟩ := name.head
      obtain rfl := (List.cons.inj hx).1
      rw [hident] at hc
      simp at hc
  cases hu with
  | bare operands =>
    refine ⟨rfl, ?_⟩
    cases operands with
    | one atom =>
      obtain ⟨v, rfl⟩ := hatom atom ht
      exact ⟨v, _, rfl⟩
    | more atom =>
      rw [List.append_assoc] at ht
      obtain ⟨v, rfl⟩ := hatom atom ht
      exact ⟨v, _, rfl⟩
  | labelled ident =>
    obtain ⟨c, cs, hc⟩ := List.exists_cons_of_ne_nil ident.nonempty
    rw [hc] at ht
    obtain rfl := (List.cons.inj ht).1
    rw [ident.chars '\'' (by rw [hc]; simp)] at hident
    cases hident

/-- A first argument that begins with a quote names the class. -/
theorem exists_of_gather_quote {imports : Imports} {b : Argument} {bs : List Argument} {className : Text}
    {method : Option Text} (hb : b.text = '\'' :: t)
    (h : Attribute.gather imports none none 0 (b :: bs) = some (some className, method)) :
    ∃ e v as, parse b.text = .ok e ∧ e.atoms = .literal v :: as ∧
      relativeName (e.resolve imports.resolve) = className ∧
      Attribute.gather imports (some className) none 1 bs = some (some className, method) := by
  obtain ⟨e, he, hcase⟩ := gather_cases h
  rw [hb] at he
  obtain ⟨hlabel, v, as, hatoms⟩ := exists_literal he
  have hposition : e.namesMethod 0 = false := by simp [namesMethod, hlabel]
  obtain ⟨hmethod, -⟩ | ⟨-, hrest⟩ := hcase
  · rw [hposition] at hmethod
    cases hmethod
  · obtain rfl := Option.some.inj (className_of_gather hrest)
    exact ⟨e, v, as, hb ▸ he, hatoms, rfl, hrest⟩

theorem countP_form (h : p '\'' = false) (h' : p ':' = false) (e : Expression) :
    e.form.countP p = 0 := by
  have hatoms : ∀ as : List Atom, (as.flatMap Atom.form).countP p = 0 := by
    intro as
    induction as with
    | nil => rfl
    | cons a as ih => cases a <;> simp [Atom.form, h, h', ih]
  rw [Expression.form, List.countP_append, hatoms]
  split <;> simp [h']

theorem two_le_form (h : p '\'' = true) {e : Expression} {as : List Atom}
    (he : e.atoms = .literal v :: as) : 2 ≤ e.form.countP p := by
  simp [Expression.form, he, Atom.form, h]
  omega

/-- An argument that begins like a quoted text and has the marks that it has is that text. -/
theorem eq_quote_of_parse {imports : Imports} (hi : imports.Named) {d : Char} {x y z : Text}
    {e : Expression} {as : List Atom} (hd : d ∈ [',', ')']) (h : x ++ y = quote t ++ d :: z)
    (he : parse x = .ok e) (hfirst : e.atoms = .literal v :: as)
    (hmarks : ∀ {p : Char → Bool}, IsMark p →
      (e.resolve imports.resolve).countP p = t.countP p) : x = quote t := by
  have hcount : ∀ {p : Char → Bool}, IsMark p → x.countP p = e.form.countP p + t.countP p := by
    intro p hp
    rw [countP_of_spelled hp (fun n hn => hi.resolve hn.isNamed) (spelled_of_parse he), hmarks hp]
  have hmark : IsMark (· == d) := isMark_of_eq (by
    simp only [List.mem_cons, List.not_mem_nil, or_false] at hd ⊢
    tauto)
  have hplain : ('\'' == d) = false ∧ (':' == d) = false ∧ d ≠ '\'' ∧ d ≠ '\\' := by
    simp only [List.mem_cons, List.not_mem_nil, or_false] at hd
    rcases hd with rfl | rfl <;> decide
  refine eq_quote_of_countP h hplain.2.2 ?_ ?_
  · have := two_le_form (p := isQuote) rfl hfirst
    rw [hcount isMark_isQuote]
    omega
  · rw [hcount hmark, countP_form (p := (· == d)) hplain.1 hplain.2.1, Nat.zero_add]

/-- A text that has as many commas and quotes as the quoted text after a comma, and does not begin with
the blank after it, begins where the quoted text does. -/
theorem append_eq_of_countP {m x y b z v : Text}
    (h : y ++ ',' :: (b ++ (x ++ z)) = ',' :: ' ' :: (quote m ++ ')' :: v))
    (hv : v.countP isQuote = 0 ∧ v.countP (· == ',') = 0) (hx : x.head? ≠ some ' ')
    (hcommas : m.countP (· == ',') ≤ x.countP (· == ','))
    (hquotes : m.countP isQuote + 2 ≤ x.countP isQuote) : x ++ z = quote m ++ ')' :: v := by
  have hy : y = [] := by
    have hall := congrArg (List.countP (· == ',')) h
    cases y with
    | nil => rfl
    | cons c y =>
      obtain rfl := (List.cons.inj h).1
      simp [List.countP_append, countP_quote (p := (· == ',')) rfl, hv] at hall
      omega
  obtain rfl := hy
  replace h := (List.cons.inj h).2
  have hb : b.countP isQuote = 0 := by
    have hall := congrArg (List.countP isQuote) h
    have hmarks : isQuote ',' = false ∧ isQuote ' ' = false ∧ isQuote ')' = false ∧
        isQuote '\'' = true := by decide
    simp [List.countP_append, countP_quote (p := isQuote) rfl, hv, hmarks] at hall
    omega
  cases b with
  | nil =>
    cases x with
    | nil => simp at hquotes
    | cons c x => exact absurd (congrArg some (List.cons.inj h).1) hx
  | cons c b =>
    replace h := (List.cons.inj h).2
    cases b with
    | nil => exact h
    | cons c' b =>
      obtain rfl := (List.cons.inj h).1
      simp [isQuote] at hb

theorem head_skipGap (t : Text) : (skipGap t).head? ≠ some ' ' := by
  intro h
  have := List.head?_dropWhile_not isGap t
  rw [show t.dropWhile isGap = skipGap t from rfl, h] at this
  exact absurd this (by decide)

/-- A text that an argument after the first one means, where the quoted text stands after the first one,
is plain. -/
theorem plain_of_later {imports : Imports} (hi : imports.Named) {e₀ f : ListEntry} {m : Text}
    (hes : Entries true (e₀ :: es)) (hf : f ∈ es)
    (hcode : es.flatMap ListEntry.pieces ++ R = cutCode (',' :: ' ' :: (quote m ++ ')' :: v)))
    (hv : v.countP isQuote = 0 ∧ v.countP (· == ',') = 0)
    (h : MeansText (f.item.flatMap Piece.text) m) (hne : m ≠ []) : Plain m := by
  obtain ⟨e, he, hm⟩ := h
  obtain ⟨w, as, hatoms⟩ : ∃ w as, e.atoms = .literal w :: as := by
    obtain ⟨label, _ | ⟨_ | _, as⟩⟩ := e
    · exact absurd (Option.some.inj hm).symm hne
    · exact ⟨_, as, rfl⟩
    · cases hm
  have hresolve : ∀ {p : Char → Bool}, IsMark p →
      (e.resolve imports.resolve).countP p = m.countP p := fun _ => by rw [resolve_of_literal? hm]
  -- the argument without the blanks before it
  have hparse := parse_skipGap he
  have hhead := head_skipGap (f.item.flatMap Piece.text)
  obtain ⟨g, hg, -⟩ := exists_gap (f.item.flatMap Piece.text)
  generalize skipGap (f.item.flatMap Piece.text) = x at hparse hhead hg
  have hcount : ∀ {p : Char → Bool}, IsMark p → x.countP p = e.form.countP p + m.countP p := by
    intro p hp
    rw [countP_of_spelled hp (fun n hn => hi.resolve hn.isNamed) (spelled_of_parse hparse), hresolve hp]
  have hcommas := hcount (isMark_of_eq (d := ',') (by simp))
  have hquotes := hcount isMark_isQuote
  have hform := two_le_form (p := isQuote) rfl hatoms
  -- the text is what stands before the argument, the argument and what stands after it
  obtain ⟨y, b, z, hlist⟩ := exists_comma hes hf hcode
  have htext := congrArg (List.flatMap Piece.text) hcode
  rw [cutCode_flatten, List.flatMap_append, hlist, hg] at htext
  have hplace := append_eq_of_countP (x := x) (y := y) (b := b ++ g)
    (z := z ++ R.flatMap Piece.text) (by simpa using htext) hv hhead (by omega) (by omega)
  obtain rfl := eq_quote_of_parse hi (by simp) hplace hparse hatoms hresolve
  exact (eq_of_parse_quote hparse hm (Nat.le_refl _)).2

theorem head_relativeName (t : Text) : (relativeName t).head? ≠ some '\\' := by
  intro h
  have := List.head?_dropWhile_not (· = '\\') t
  rw [show t.dropWhile (· = '\\') = relativeName t from rfl, h] at this
  simp at this

/-- The text is an argument that begins with a quoted text and names the class. -/
def NamesClass (imports : Imports) (className x : Text) : Prop :=
  ∃ e v as, parse x = .ok e ∧ e.atoms = .literal v :: as ∧
    relativeName (e.resolve imports.resolve) = className

section

variable {imports : Imports} {className x : Text}

theorem NamesClass.head (h : NamesClass imports className x) : className.head? ≠ some '\\' := by
  obtain ⟨e, -, -, -, -, rfl⟩ := h
  exact head_relativeName _

theorem NamesClass.countP_le (h : NamesClass imports className x) (hp : IsMark p) (hi : imports.Named) :
    className.countP p ≤ x.countP p := by
  obtain ⟨e, -, -, he, -, rfl⟩ := h
  rw [countP_relativeName hp]
  exact countP_le_of_parse hp hi he

/-- An argument that stands where a class is written in quotes, and names that class, is what is written
there. -/
theorem NamesClass.eq_quote (h : NamesClass imports className x) (hi : imports.Named) {d : Char}
    {y z : Text} (hd : d ∈ [',', ')']) (htext : quote className ++ d :: z = x ++ y) :
    x = quote className ∧ Plain className := by
  obtain ⟨e, v, as, he, hatoms, hname⟩ := h
  obtain rfl : x = quote className := eq_quote_of_parse hi hd htext.symm he hatoms fun hp => by
    rw [← hname, countP_relativeName hp]
  refine ⟨rfl, ?_⟩
  obtain ⟨w, -, rfl⟩ := parse_quote_iff.mp he
  have hresolve : resolve imports.resolve ⟨none, [.literal w]⟩ = w := List.append_nil w
  rw [hresolve] at hname
  refine (eq_of_parse_quote he (v := w) (by simp [literal?]) ?_).2
  rw [← hname]
  exact (List.dropWhile_suffix _).length_le

/-- The arguments of a list that begins with a quote: the first one names the class, and a method is the
value of a later one. -/
theorem exists_class_argument {as : List Argument} {method : Option Text}
    (hcode : cutCode ('\'' :: t) = es.flatMap ListEntry.pieces ++ R)
    (hends : ∀ q ∈ cutCode ('\'' :: t), ∀ d, q.kind ≠ .broken d) (hes : Entries true es)
    (htexts : as.map Argument.text = es.map fun e => e.item.flatMap Piece.text)
    (h : Attribute.gather imports none none 0 as = some (some className, method)) :
    ∃ x e es', NamesClass imports className x ∧ Entries true (e :: es') ∧
      '\'' :: t = x ++ (es'.flatMap ListEntry.pieces ++ R).flatMap Piece.text ∧
      es'.flatMap ListEntry.pieces ++ R =
        cutCode ((es'.flatMap ListEntry.pieces ++ R).flatMap Piece.text) ∧
      ∀ m ∈ method, ∃ f ∈ es', MeansText (f.item.flatMap Piece.text) m := by
  have hne : es ≠ [] := by
    rintro rfl
    rw [List.map_eq_nil_iff.mp htexts] at h
    cases h
  obtain ⟨e, es, rfl, hpieces, x, hx⟩ := exists_first_entry hcode hends hes hne
  obtain ⟨b, bs, rfl, hb, hbs⟩ := List.map_eq_cons_iff.mp htexts
  dsimp only at hb
  rw [List.flatMap_cons, hpieces, List.append_assoc] at hcode
  obtain ⟨v, w, as, hv, hatoms, hname, hrest⟩ := exists_of_gather_quote (hb.trans hx) h
  refine ⟨e.item.flatMap Piece.text, e, es, ⟨v, w, as, hb ▸ hv, hatoms, hname⟩, hes, ?_,
    cutCode_suffix hcode, fun m hm => ?_⟩
  · rw [← List.flatMap_append, ← hcode, cutCode_flatten]
  · obtain hnone | ⟨c, hc, m', hm', hmethod⟩ := exists_of_gather hrest
    · cases hnone.symm.trans hm
    · obtain rfl : m' = m := Option.some.inj (hmethod.symm.trans hm)
      obtain ⟨f, hf, hftext⟩ := List.mem_map.mp (hbs ▸ List.mem_map_of_mem hc)
      exact ⟨f, hf, hftext ▸ hm'⟩

end

end Crosslink.Source

namespace Crosslink.Production

open Source Source.Expression Source.TokenSequence

variable {imports : Imports} {r : BackReference} {tag : Text}

/-! ## §5 Written and read -/

/-- A tag that leads from inline markup to code. -/
def IsTag (mark : Text) : Prop :=
  mark = "<?" ∨ mark = "<?=" ∨ ∃ word, Text.sameLetters word "php" = true ∧ mark = "<?" ++ word

/-- A tag that leads to code, with any number of blanks after it. -/
def OpenTag (tag : Text) : Prop :=
  ∃ mark gap, IsTag mark ∧ (∀ c ∈ gap, isAsciiBlank c = true) ∧ tag = mark ++ gap

/-- The tests that the group written for a test names, where it stands alone after an open tag. -/
def readBack (tag : Text) (r : BackReference) : Option (List BackReference) := do
  let l ← (tokenize (tag ++ render r)).toOption
  let g ← AttributeGroup.parse l (tag ++ render r) 0
  some (testsNamed (Imports.ofTokens l) [g])

/-- What it takes for a test to be named by the group that is written for it. -/
structure Survives (r : BackReference) : Prop where
  nonempty : r.container ≠ []
  unrooted : r.container.head? ≠ some '\\'
  container : Plain r.container
  /-- A member that is named has a name. -/
  member : ∀ m ∈ r.member, m ≠ [] ∧ Plain m
  /-- A container that is named alone does not name a member after its first double colon. -/
  whole : r.member = none → ∀ c m, r.container = c ++ (memberSeparator ++ m) →
    ¬ memberSeparator <:+: c ++ [':'] → m = []

theorem render_eq (r : BackReference) :
    render r = ['#', '['] ++ (testedByName ++ ['(']) ++ (testText r ++ [')', ']']) := by
  simp only [testText, render]
  cases r.member <;> simp [quote]

theorem testText_eq (r : BackReference) : ∃ d z, testText r ++ [')', ']'] = quote r.container ++ d :: z ∧
    (r.member = none → d = ')' ∧ z = [']']) ∧
      ∀ m ∈ r.member, d = ',' ∧ z = ' ' :: (quote m ++ ')' :: [']']) := by
  unfold testText
  cases r.member with
  | none => exact ⟨')', [']'], by simp, by simp, by simp⟩
  | some m => exact ⟨',', ' ' :: (quote m ++ ')' :: [']']), by simp, by simp, by simp⟩

/-- The group written for a test that survives names it, under any imports. -/
theorem Survives.readsBack (h : Survives r) : ReadsBack imports r := by
  have hparse : ∀ {t : Text}, Plain t → parse (quote t) = .ok ⟨none, [.literal t]⟩ :=
    fun ht => parse_quote_iff.mpr ⟨_, ht.singleQuoted, rfl⟩
  have hresolve : ∀ t : Text, resolve imports.resolve ⟨none, [.literal t]⟩ = t := List.append_nil
  have hname := relativeName_of_unrooted h.unrooted
  have hunrooted := Target.unrooted_of_head h.unrooted
  obtain ⟨container, member⟩ := r
  refine testedBy_eq_some_iff.mpr ⟨container, member, ?_, h.nonempty, ?_⟩
  · cases member with
    | none =>
      simp [written, writtenArguments, Attribute.gather, hparse h.container, hresolve, hname]
    | some m =>
      have hmember := hparse (h.member m rfl).2
      simp [written, writtenArguments, Attribute.gather, hparse h.container, hmember, hresolve, hname,
        literal?]
  · cases member with
    | none =>
      have htold : Told container none (.ofContainer container) := .container fun c m hsplit => by
        obtain ⟨heq, hfirst⟩ := splitFirst_memberSeparator_iff.mp hsplit
        exact h.whole rfl c m heq hfirst
      rwa [BackReference.ofContainer, hunrooted] at htold
    | some m =>
      have hm := (h.member m rfl).1
      have htold : Told container (some m) (.ofMember container m) := .method hm
      rw [BackReference.ofMember, hunrooted] at htold
      rwa [Option.filter_some, if_pos (by simpa using hm)]

/-- What is read of the list that is written for a test is that test only if the test survives. -/
theorem survives_of_list {es : List ListEntry} {R : List Piece} {a : Attribute} (hi : imports.Named)
    (hcode : cutCode (testText r ++ [')', ']']) = es.flatMap ListEntry.pieces ++ R)
    (hends : ∀ q ∈ cutCode (testText r ++ [')', ']']), ∀ d, q.kind ≠ .broken d)
    (hes : Entries true es) (htexts : a.arguments.map Argument.text = es.map fun e => e.item.flatMap Piece.text)
    (h : a.testedBy imports = some r) : Survives r := by
  obtain ⟨className, method, hgather, hclass, htold⟩ := testedBy_eq_some_iff.mp h
  obtain ⟨d, z, htext, hnone, hsome⟩ := testText_eq r
  have hquote : testText r ++ [')', ']'] = '\'' :: (escaped r.container ++ ("'" ++ d :: z)) := by
    simp [htext, quote, escaped]
  rw [hquote] at hcode hends
  obtain ⟨x, e, es, hx, hes, hall, hrest, hmethod⟩ :=
    exists_class_argument hcode hends hes htexts hgather
  rw [← hquote, htext] at hall
  have hunrooted : Crosslink.unrooted className = className := Target.unrooted_of_head hx.head
  have hchosen : ∀ m ∈ method.filter (· ≠ []), m ∈ method := fun m hm =>
    (Option.filter_eq_some_iff.mp hm).1
  generalize method.filter (· ≠ []) = chosen at htold hchosen
  cases htold with
  | @method m nonempty =>
    obtain ⟨rfl, rfl⟩ := hsome m rfl
    simp only [BackReference.ofMember, hunrooted] at hall ⊢
    obtain ⟨rfl, hplain⟩ := hx.eq_quote hi (by simp) hall
    rw [← List.append_cancel_left hall] at hrest
    obtain ⟨f, hf, hm⟩ := hmethod m (hchosen m rfl)
    have hmember := plain_of_later hi hes hf hrest (by decide) hm nonempty
    exact ⟨hclass, hx.head, hplain, by simpa using ⟨nonempty, hmember⟩, by simp⟩
  | @joined c m split nonempty =>
    -- the two colons between class and member are not written
    obtain ⟨rfl, rfl⟩ := hsome m rfl
    have hcolons : IsMark (· == ':') := isMark_of_eq (by simp)
    have hclass := hx.countP_le hcolons hi
    have hcount := congrArg (List.countP (· == ':')) hall
    rw [Text.eq_append_of_splitFirst split] at hclass
    simp [BackReference.ofMember, List.countP_append, countP_quote (p := (· == ':')) rfl,
      countP_unrooted hcolons, memberSeparator] at hcount hclass
    omega
  | container whole =>
    obtain ⟨rfl, rfl⟩ := hnone rfl
    simp only [BackReference.ofContainer, hunrooted] at hall ⊢
    obtain ⟨rfl, hplain⟩ := hx.eq_quote hi (by simp) hall
    exact ⟨hclass, hx.head, hplain, by simp, fun _ c m heq hfirst =>
      whole c m (splitFirst_memberSeparator_iff.mpr ⟨heq, hfirst⟩)⟩

/-- A tag leads to code however that goes on, if not with a letter or an equals sign. -/
theorem IsTag.markupLength_append {mark t : Text} (h : IsTag mark)
    (ht : ∀ c ∈ t.head?, c ≠ '=' ∧ c.toLower ≠ 'p') : markupLength (mark ++ t) = mark.length := by
  have hphp : ∀ {c : Char} (cs : Text), c.toLower ≠ 'p' →
      Text.sameLetters ((c :: cs).take 3) "php" = false := by
    intro c cs hc
    refine beq_eq_false_iff_ne.mpr fun heq => hc ?_
    exact (List.cons.inj heq).1
  obtain rfl | rfl | ⟨w, hw, rfl⟩ := h
  · change tagLength t = 2
    cases t with
    | nil => rfl
    | cons c t =>
      obtain ⟨hequals, hp⟩ := ht c rfl
      rw [tagLength, hphp t hp]
      simp [hequals]
  · change tagLength ('=' :: t) = 3
    rw [tagLength, hphp t (by decide)]
    rfl
  · have hlength : w.length = 3 := by
      have := congrArg List.length (eq_of_beq hw)
      simpa [Text.lower] using this
    change tagLength (w ++ t) = w.length + 2
    rw [tagLength, List.take_left' hlength, hw, hlength]
    rfl

/-- What code after an open tag is cut into. -/
theorem exists_cut_of_openTag (h : OpenTag tag) : ∃ A, countIn A = 0 ∧ Block A ∧
    ∀ t : Text, cut (tag ++ '#' :: t) = A ++ cutCode ('#' :: t) := by
  obtain ⟨mark, gap, hmark, hgap, rfl⟩ := h
  have hlength : ∀ t : Text, markupLength (mark ++ (gap ++ '#' :: t)) = mark.length := by
    intro t
    refine hmark.markupLength_append fun c hc => ?_
    cases gap with
    | nil =>
      obtain rfl := Option.some.inj hc
      decide
    | cons d gap =>
      obtain rfl := Option.some.inj hc
      have := hgap d (by simp)
      simp only [isAsciiBlank, Bool.or_eq_true, decide_eq_true_eq] at this
      rcases this with (((rfl | rfl) | rfl) | rfl) | rfl <;> decide
  have hwithin : ∀ t : Text, "<?".toList <:+: mark ++ t := by
    intro t
    obtain rfl | rfl | ⟨w, -, rfl⟩ := hmark
    · exact ⟨[], t, rfl⟩
    · exact ⟨[], '=' :: t, rfl⟩
    · exact ⟨[], w ++ t, by simp⟩
  refine ⟨⟨.markup, mark⟩ :: blanks gap, ?_, ?_, fun t => ?_⟩
  · rw [← List.singleton_append, countIn_append, countIn_blanks]
    rfl
  · exact Block.append (M := [⟨.markup, mark⟩]) ⟨by simp, rfl⟩ (block_blanks gap)
  · rw [List.append_assoc, cut, if_pos (contains_iff.mpr (hwithin _)), hlength]
    dsimp only
    rw [List.take_left, List.drop_left, solid_blanks hgap]
    rfl

/-- What the group written for a test is cut into after an open tag: its name is the second token and
the parenthesis of its list the third. -/
theorem exists_cut_render (h : OpenTag tag) (r : BackReference) : ∃ A B R,
    cut (tag ++ render r) = A ++ ⟨.token .name, testedByName⟩ :: R ∧ countIn A = 1 ∧
      cut (tag ++ render r) = B ++ ⟨.token .openParen, ['(']⟩ :: cutCode (testText r ++ [')', ']']) ∧
        countIn B = 2 := by
  obtain ⟨A, hA, -, hcut⟩ := exists_cut_of_openTag h
  have hname : Solid (testedByName ++ ['('])
      [⟨.token .name, testedByName⟩, ⟨.token .openParen, ['(']⟩] :=
    solid_opening (c := 'T') (n := "estedBy".toList) (by decide)
      (show qualifiedLength "estedBy".toList = "estedBy".toList.length by decide)
  have hsolid := solid_attrOpen.append hname (testText r ++ [')', ']'])
  have hall : cut (tag ++ render r) = A ++ (⟨.token .attrOpen, ['#', '[']⟩ ::
      ⟨.token .name, testedByName⟩ :: ⟨.token .openParen, ['(']⟩ ::
        cutCode (testText r ++ [')', ']'])) := by
    rw [render_eq]
    exact (hcut _).trans (congrArg (A ++ ·) hsolid)
  refine ⟨A ++ [⟨.token .attrOpen, ['#', '[']⟩],
    A ++ [⟨.token .attrOpen, ['#', '[']⟩, ⟨.token .name, testedByName⟩],
    ⟨.token .openParen, ['(']⟩ :: cutCode (testText r ++ [')', ']']), ?_, ?_, ?_, ?_⟩
  · rw [hall, List.append_assoc]
    rfl
  · rw [countIn_append, hA, countIn_singleton rfl]
  · rw [hall, List.append_assoc]
    rfl
  · rw [countIn_append, hA, countIn_cons rfl, countIn_singleton rfl]

/-- A test that survives is all that is read back. -/
theorem Survives.readBack_eq (h : Survives r) (htag : OpenTag tag) : readBack tag r = some [r] := by
  obtain ⟨A, hA, hblock, hcut⟩ := exists_cut_of_openTag htag
  have hback : ∀ imports, ReadsBack imports r := fun imports => h.readsBack
  have hpieces : cut (tag ++ render r) = A ++ ((inscription (hback {})).pieces ++ []) := by
    have hsolid := (inscription (hback {})).solid []
    rw [text_inscription, List.append_nil] at hsolid
    obtain ⟨t, ht⟩ := (inscription (hback {})).head
    rw [text_inscription] at ht
    rw [ht, hcut, ← ht, hsolid, cutCode]
  obtain ⟨b, htake, hopened⟩ := (hblock.append (inscription (hback {})).block).exists_balanced
  obtain ⟨l, hl⟩ : ∃ l, tokenize (tag ++ render r) = .ok l := by
    refine ⟨_, tokenize_eq_ok.mpr ⟨b, ?_, hopened, rfl⟩⟩
    rw [hpieces, List.append_nil]
    exact htake
  obtain ⟨g, hg, -, -, htests⟩ := reads_inscription (hback (Imports.ofTokens l)) hl hpieces
  rw [hA] at hg
  simp [readBack, hl, hg, htests, Except.toOption]

/-- An attribute without arguments names no test. -/
theorem arguments_ne_nil {a : Attribute} (h : a.testedBy imports = some r) : a.arguments ≠ [] := by
  intro hnil
  obtain ⟨className, method, hgather, -⟩ := testedBy_eq_some_iff.mp h
  rw [hnil] at hgather
  cases hgather

theorem countP_testText (r : BackReference) : (testText r ++ [')', ']']).countP (· == ')') =
    r.container.countP (· == ')') + (r.member.getD []).countP (· == ')') + 1 := by
  obtain ⟨d, z, htext, hnone, hsome⟩ := testText_eq r
  rw [htext]
  cases hm : r.member with
  | none =>
    obtain ⟨rfl, rfl⟩ := hnone hm
    simp [countP_quote (p := (· == ')')) rfl]
  | some m =>
    obtain ⟨rfl, rfl⟩ := hsome m hm
    simp [countP_quote (p := (· == ')')) rfl]
    omega

/-- No list after the first one can hold what names the test: it would have to do with a closing
parenthesis less. -/
theorem not_named_later {A M X S : List Piece} {es : List ListEntry} {a : Attribute} (hi : imports.Named)
    (hcode : cutCode (testText r ++ [')', ']']) = M ++ ⟨.token .closeParen, [')']⟩ ::
      (X ++ (es.flatMap ListEntry.pieces ++ (A ++ ⟨.token .closeParen, [')']⟩ :: S))))
    (htexts : a.arguments.map Argument.text = es.map fun e => e.item.flatMap Piece.text) :
    a.testedBy imports ≠ some r := by
  intro h
  have hmarks := countP_of_testedBy (isMark_of_eq (d := ')') (by simp)) hi h
  have hsame : a.arguments.flatMap Argument.text = es.flatMap fun e => e.item.flatMap Piece.text := by
    rw [List.flatMap_def, htexts, ← List.flatMap_def]
  have hitems := countP_items_le (p := (· == ')')) es
  have hall := congrArg (fun ps => (ps.flatMap Piece.text).countP (· == ')')) hcode
  rw [cutCode_flatten, countP_testText] at hall
  simp [List.countP_append] at hall
  rw [hsame] at hmarks
  omega

/-- Whatever attribute of the group names the test, the test survives. -/
theorem survives_of_mem {l : TokenSequence} {g : AttributeGroup} {a : Attribute} (htag : OpenTag tag)
    (hl : tokenize (tag ++ render r) = .ok l)
    (hg : AttributeGroup.parse l (tag ++ render r) 0 = some g) (ha : a ∈ g.attributes)
    (h : a.testedBy (Imports.ofTokens l) = some r) : Survives r := by
  obtain ⟨A, B, R, hcut, hA, hcut', hB⟩ := exists_cut_render htag r
  have hname : l.kindAt 1 = some .name := hA ▸ kindAt_of_cut hl hcut rfl
  have hparen : l.kindAt 2 = some .openParen := hB ▸ kindAt_of_cut hl hcut' rfl
  obtain ⟨B', es, ps, Q, hlist, hpartner⟩ := exists_list hl hparen
  obtain ⟨k, t, hk, ht, rfl⟩ :=
    exists_place_of_attribute (nested_of_tokenize hl) hg hname hparen hpartner ha
  obtain ⟨rfl, -, hrest⟩ := eq_of_countIn hlist.cut hcut' rfl rfl (hlist.place.trans hB.symm)
  have hi := named_ofTokens hl
  have hne := arguments_ne_nil h
  have harguments := arguments_attributeAt l (tag ++ render r) k t
  split at harguments
  · rename_i hopen
    obtain rfl | hlater := hk
    · refine survives_of_list hi (hrest.symm.trans (List.append_assoc ..)) (fun q hq => ?_) hlist.entries
        (harguments ▸ hlist.texts) h
      exact ne_broken_of_tokenize hl (by rw [hcut']; simp [hq])
    · obtain ⟨A', es', ps', Q', hlist', -⟩ := exists_list hl (of_decide_eq_true hopen)
      have hbefore : B' ++ ⟨.token .openParen, ['(']⟩ :: (es.flatMap ListEntry.pieces ++ ps) ++
          [⟨.token .closeParen, [')']⟩] <+: A' := by
        refine prefix_of_count ⟨Q, by rw [hlist.cut]; simp⟩ ⟨_, hlist'.cut.symm⟩ ?_
        rw [countIn_append, hB, countIn_cons rfl, hlist'.place]
        omega
      obtain ⟨X, rfl⟩ := hbefore
      have hcode : cutCode (testText r ++ [')', ']']) = (es.flatMap ListEntry.pieces ++ ps) ++
          ⟨.token .closeParen, [')']⟩ :: ((X ++ [⟨.token .openParen, ['(']⟩]) ++
            (es'.flatMap ListEntry.pieces ++ (ps' ++ ⟨.token .closeParen, [')']⟩ :: Q'))) := by
        have := hcut'.symm.trans hlist'.cut
        simpa using this
      exact absurd h (not_named_later hi hcode (harguments ▸ hlist'.texts))
  · exact absurd harguments hne

/-- A group written for a test after an open tag is read as that test exactly if the container is not
empty and does not begin with a backslash, no backslash stands in container or member before a backslash,
before a quote or at the end, and either there is a member that is not empty, or there is none and
nothing follows the first `::` of the container. Where the test is read at all, nothing else is. -/
theorem readBack_exact (h : OpenTag tag) (r : BackReference) : (readBack tag r = some [r] ↔ Survives r) ∧
    ∀ rs, readBack tag r = some rs → r ∈ rs → rs = [r] := by
  have hmem : ∀ rs, readBack tag r = some rs → r ∈ rs → Survives r := by
    intro rs hrs hr
    simp only [readBack, Option.bind_eq_bind, Option.bind_eq_some_iff] at hrs
    obtain ⟨l, hl, g, hg, hrs⟩ := hrs
    obtain rfl := Option.some.inj hrs
    simp only [testsNamed, List.flatMap_singleton, List.mem_filterMap, List.mem_filter] at hr
    obtain ⟨a, ⟨ha, -⟩, hr⟩ := hr
    exact survives_of_mem h (eq_ok_of_toOption hl) hg ha hr
  exact ⟨⟨fun hback => hmem _ hback (by simp), fun hsurvives => hsurvives.readBack_eq h⟩,
    fun rs hrs hr => Option.some.inj (hrs.symm.trans ((hmem rs hrs hr).readBack_eq h))⟩

/-- A quote in a test comes back, after its backslash has been taken off. -/
theorem readBack_exact_apostrophe : OpenTag "<?php\n" ∧
    Survives ⟨"Tests\\CartTest", some "it's empty"⟩ ∧
    readBack "<?php\n" ⟨"Tests\\CartTest", some "it's empty"⟩ =
      some [⟨"Tests\\CartTest", some "it's empty"⟩] := by
  have htag : OpenTag "<?php\n" := ⟨"<?php", "\n", .inr (.inr ⟨"php", rfl, rfl⟩),
    List.forall_mem_singleton.mpr rfl, rfl⟩
  have hsurvives : Survives ⟨"Tests\\CartTest", some "it's empty"⟩ := by
    refine ⟨by decide, by decide, ⟨by decide, by decide, by decide⟩, ?_, by simp⟩
    rintro m ⟨⟩
    exact ⟨by decide, by decide, by decide, by decide⟩
  exact ⟨htag, hsurvives, (readBack_exact htag _).1.mpr hsurvives⟩

end Crosslink.Production
