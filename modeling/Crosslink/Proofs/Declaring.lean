import Crosslink.Proofs.Dropping

/-!
# Calls that declare links

A call all of whose items are read can be taken out of a chain and put into one, and so can the call
it becomes when it is given another name.

* §1 `ChainCall.words`, the words of a call, and `callBlock_of_plain`.
* §2 `calls_of_renamed`, a call with another name.
* §3 `changes_of_rename` and `changes_of_removal`, the splices as changes of the chain.
-/

namespace Crosslink.FluentChain

open Source Source.TokenSequence

variable {source : Text} {l : TokenSequence} {A M P Q R : List Piece} {p : Piece} {c : ChainCall}

/-! ## 1. Words of a call -/

theorem words_of_gap {g : List Piece} (h : kindsIn g = []) : g.filterMap wordOf = [] :=
  List.map_eq_nil_iff.mp h

theorem word_cons (kind : TokenKind) (text : Text) (ps : List Piece) :
    ((⟨.token kind, text⟩ : Piece) :: ps).filterMap wordOf = (kind, text) :: ps.filterMap wordOf :=
  rfl

theorem ChainCall.words (c : ChainCall) :
    c.pieces.filterMap wordOf = (.arrow, c.arrow) :: (.name, c.name) :: (.openParen, c.opener) ::
      (c.body.filterMap wordOf ++ [(.closeParen, c.closer)]) := by
  simp only [pieces, head, List.filterMap_append, word_cons, words_of_gap c.lead_gap,
    words_of_gap c.inner_gap, words_of_gap c.outer_gap, List.nil_append, List.cons_append,
    List.filterMap_nil]

/-- What stands in the parentheses of a call all of whose items are read. -/
structure ChainCall.Plain (c : ChainCall) : Prop where
  kinds : ∀ kind ∈ kindsIn c.body, kind ∈ listKinds
  harmless : Harmless (c.body.filterMap wordOf)

theorem ChainCall.ends_pieces (c : ChainCall) : ∀ p ∈ c.pieces, ∀ d, p.kind ≠ .broken d := by
  intro p hp d
  have hends := c.ends p
  simp only [pieces, head, List.mem_append, List.mem_cons, List.not_mem_nil, or_false] at hp
  simp only [List.mem_append] at hends
  obtain (h | rfl | h | rfl | h | rfl) | h | rfl := hp
  · exact hends (by simp [h]) d
  · simp
  · exact hends (by simp [h]) d
  · simp
  · exact hends (by simp [h]) d
  · simp
  · exact hends (.inr (by simpa [body] using h)) d
  · simp

/-- A call of one of the two names whose items are read can be taken out of a chain and put into
one. -/
theorem callBlock_of_plain (hc : c.Plain) (hname : c.name = linkingCall ∨ c.name = coveringCall) :
    CallBlock c.pieces := by
  refine ⟨c.ends_pieces, ⟨_, _, _, _, _, c.words, hname, fun w hw =>
    hc.kinds w.1 (List.mem_map.mpr ⟨w, hw, rfl⟩)⟩, ?_⟩
  have hstmt : ¬ BeginsStatement (.name, c.name) := by
    rintro ⟨-, hw | hw⟩
    · obtain h | h := hname <;> rw [h] at hw <;> exact absurd hw (by decide)
    · obtain h | h := hname <;> rw [h] at hw <;> exact absurd hw (by decide)
  rw [c.words]
  refine .cons (not_beginsStatement_of_kind (by simp)) (.cons hstmt
    (.cons (not_beginsStatement_of_kind (by simp)) (hc.harmless.append ?_)))
  exact .cons (not_beginsStatement_of_kind (by simp)) trivial

/-- The words of a call all of whose items are read. -/
theorem plain_of_read (hl : tokenize source = .ok l) (hcut : Source.cut source = A ++ (c.pieces ++ Q))
    (hread : ∀ e ∈ c.entries, ∃ x, Expression.parse (e.item.flatMap Piece.text) = .ok x) : c.Plain := by
  have hcutBody : Source.cut source = (A ++ c.head) ++ (c.entries.flatMap ListEntry.pieces ++
      (c.rest ++ ⟨.token .closeParen, c.closer⟩ :: Q)) := by
    rw [hcut, ChainCall.pieces, ChainCall.body]
    simp
  obtain ⟨hkinds, hharmless⟩ := words_of_entries hl hcutBody c.listed c.commas
    (by rw [kindsIn_of_token rfl]; rfl) hread
  refine ⟨fun kind hkind => ?_, ?_⟩
  · rw [ChainCall.body, kindsIn_append, List.mem_append] at hkind
    exact hkind.elim (hkinds kind) (listKinds_of_commas c.commas kind)
  · rw [ChainCall.body, List.filterMap_append]
    exact hharmless.append (harmless_of_commas c.commas)

/-! ## 2. Calls with another name -/

/-- A call with another name. -/
def ChainCall.renamed (c : ChainCall) (name : Text) : ChainCall := { c with name := name }

/-- What stands before the name of a call. -/
def ChainCall.front (c : ChainCall) : List Piece :=
  c.lead ++ ⟨.token .arrow, c.arrow⟩ :: c.inner

/-- What stands after the name of a call. -/
def ChainCall.back (c : ChainCall) : List Piece :=
  c.outer ++ ⟨.token .openParen, c.opener⟩ :: (c.body ++ [⟨.token .closeParen, c.closer⟩])

theorem ChainCall.pieces_eq (c : ChainCall) :
    c.pieces = c.front ++ ⟨.token .name, c.name⟩ :: c.back := by
  simp [pieces, head, front, back]

theorem ChainCall.pieces_renamed (c : ChainCall) (name : Text) :
    (c.renamed name).pieces = c.front ++ ⟨.token .name, name⟩ :: c.back :=
  (c.renamed name).pieces_eq

/-- A name without backslashes is one piece where another such name is. -/
theorem cutCode_rename {x : Text} {c d : Char} {n m : Text} (hc : isNameStart c = true)
    (hd : isNameStart d = true) (hn : ∀ e ∈ n, isNameChar e = true)
    (hm : ∀ e ∈ m, isNameChar e = true)
    (h : cutCode (c :: n ++ x) = ⟨.token .name, c :: n⟩ :: R) :
    cutCode (d :: m ++ x) = ⟨.token .name, d :: m⟩ :: R := by
  rw [List.cons_append, cutCode_cons, measure_name hc, qualifiedLength_append_chars hn] at h
  obtain ⟨hfirst, rfl⟩ := List.cons.inj h
  have htake : x.take (qualifiedLength x) = [] := by
    have := (List.cons.inj (Piece.mk.inj hfirst).2).2
    rw [List.take_length_add_append] at this
    simpa using this
  rw [List.cons_append, cutCode_cons, measure_name hd, qualifiedLength_append_chars hm]
  simp only [List.take_length_add_append, List.drop_length_add_append, htake, List.append_nil]

/-- The two names are written alike: with letters only, and beginning with the same one. -/
structure IsCallName (name : Text) : Prop where
  chars : ∃ n, name = 'l' :: n ∧ ∀ e ∈ n, isNameChar e = true

theorem isCallName_of_mem {name : Text} (h : name = linkingCall ∨ name = coveringCall) :
    IsCallName name := by
  obtain rfl | rfl := h
  · exact ⟨⟨_, rfl, List.all_eq_true.mp (by rfl)⟩⟩
  · exact ⟨⟨_, rfl, List.all_eq_true.mp (by rfl)⟩⟩

theorem ChainCall.exists_closer (c : ChainCall) :
    c.pieces = (c.head ++ c.body) ++ [⟨.token .closeParen, c.closer⟩] := by
  simp [pieces]

/-- A call is cut alike whatever comes after it. -/
theorem solid_of_code (h : cutCode ((c.pieces ++ Q).flatMap Piece.text) = c.pieces ++ Q) :
    Solid (c.pieces.flatMap Piece.text) c.pieces ∧
      (c.pieces.flatMap Piece.text).getLast? = some ')' := by
  have hsplit : c.pieces ++ Q = (c.head ++ c.body) ++ ⟨.token .closeParen, c.closer⟩ :: Q := by
    rw [c.exists_closer]
    simp
  have hcode := cutCode_suffix (h.trans hsplit)
  obtain ⟨htext, -⟩ := solid_of_closeParen hcode rfl
  have hflat : (c.pieces ++ Q).flatMap Piece.text =
      (c.head ++ c.body).flatMap Piece.text ++ ')' :: Q.flatMap Piece.text := by
    rw [hsplit]
    simp [show c.closer = [')'] from htext]
  have hrest : cutCode (')' :: Q.flatMap Piece.text) = ⟨.token .closeParen, c.closer⟩ :: Q := by
    rw [hcode]
    simp [show c.closer = [')'] from htext]
  have hsolid := solid_of_closed rfl (by rw [← hflat, h, hsplit, hrest])
  have hpieces : c.pieces = (c.head ++ c.body) ++ [⟨.token .closeParen, [')']⟩] := by
    rw [c.exists_closer, show c.closer = [')'] from htext]
  rw [hpieces, List.flatMap_append]
  exact ⟨hsolid, by simp⟩

/-- A call with another name is cut like the one it was. -/
theorem code_of_renamed {name : Text} (hname : IsCallName c.name) (hname' : IsCallName name)
    (h : cutCode ((c.pieces ++ Q).flatMap Piece.text) = c.pieces ++ Q) :
    cutCode (((c.renamed name).pieces ++ Q).flatMap Piece.text) = (c.renamed name).pieces ++ Q := by
  obtain ⟨n, hn, hchars⟩ := hname.chars
  obtain ⟨m, rfl, hchars'⟩ := hname'.chars
  have hsplit : c.pieces ++ Q = c.front ++ ⟨.token .name, c.name⟩ :: (c.back ++ Q) := by
    rw [c.pieces_eq]
    simp
  have hcode := cutCode_suffix (h.trans hsplit)
  rw [List.flatMap_cons, hn] at hcode
  have hcode' := cutCode_rename (d := 'l') (by decide) (by decide) hchars hchars' hcode.symm
  have hold : cutCode (c.front.flatMap Piece.text ++ ('l' :: n ++ (c.back ++ Q).flatMap Piece.text)) =
      c.front ++ cutCode ('l' :: n ++ (c.back ++ Q).flatMap Piece.text) := by
    rw [← hcode]
    rw [hsplit] at h
    simpa [hn] using h
  have hnew := cutCode_append (alike_of_head _ (m ++ (c.back ++ Q).flatMap Piece.text) (by decide)) rfl
    hold fun p _ => mayFollow_of_head p _ _ (by decide)
  rw [ChainCall.pieces_renamed, List.append_assoc, List.cons_append, List.flatMap_append,
    List.flatMap_cons, ← hcode']
  simpa using hnew

theorem spaced_of_mid (h : Spaced (A ++ (M ++ Q))) : Spaced M := by
  obtain ⟨htags, hslashes⟩ := h
  rw [List.filterMap_append, List.filterMap_append] at hslashes
  obtain ⟨-, htags, -⟩ := List.isChain_append.mp htags
  obtain ⟨-, hslashes, -⟩ := List.isChain_append.mp hslashes
  exact ⟨(List.isChain_append.mp htags).1, (List.isChain_append.mp hslashes).1⟩

/-- With another name in it, a call has no seam more. -/
theorem spaced_of_renamed {name : Text} (h : Spaced c.pieces) : Spaced (c.renamed name).pieces := by
  obtain ⟨htags, hslashes⟩ := h
  rw [c.pieces_eq] at htags
  rw [c.words] at hslashes
  constructor
  · rw [ChainCall.pieces_renamed]
    obtain ⟨hfront, hback, hjoin⟩ := List.isChain_append.mp htags
    refine List.isChain_append.mpr ⟨hfront, ?_, fun p hp q hq => ?_⟩
    · cases hb : c.back with
      | nil => exact .singleton _
      | cons b bs =>
        rw [hb] at hback
        refine List.isChain_cons_cons.mpr ⟨fun ht => ?_, (List.isChain_cons_cons.mp hback).2⟩
        cases ht.1
    · obtain rfl : q = ⟨.token .name, name⟩ := by simpa using hq.symm
      intro ht kind
      exact absurd rfl (hjoin p hp ⟨.token .name, c.name⟩ (by simp) ht .name)
  · rw [(c.renamed name).words]
    obtain ⟨hfirst, hrest⟩ := List.isChain_cons_cons.mp hslashes
    obtain ⟨hsecond, hrest⟩ := List.isChain_cons_cons.mp hrest
    refine List.isChain_cons_cons.mpr ⟨fun he => ?_, List.isChain_cons_cons.mpr ⟨fun he => ?_, hrest⟩⟩
    · cases he
    · cases he

/-- A call of a chain, given another of the two names, can be put in its place. -/
theorem calls_of_renamed {name : Text} (hsp : Spaced (Source.cut source))
    (hcut : Source.cut source = A ++ (c.pieces ++ Q)) (hA : A ≠ [])
    (hc : c.Plain) (hold : c.name = linkingCall ∨ c.name = coveringCall)
    (hnew : name = linkingCall ∨ name = coveringCall) : Calls (c.renamed name).pieces := by
  obtain ⟨hsolid, hlast⟩ := solid_of_code
    (code_of_renamed (isCallName_of_mem hold) (isCallName_of_mem hnew) (cut_suffix hcut hA).symm)
  rw [hcut] at hsp
  have hcalls := Calls.cons (callBlock_of_plain (c := c.renamed name) ⟨hc.kinds, hc.harmless⟩ hnew)
    hsolid (c.renamed name).closes_pieces hlast (spaced_of_renamed (spaced_of_mid hsp)) .nil
  rwa [List.append_nil] at hcalls

/-! ## 3. Changes of whole calls -/

/-- No tag stands in a name, nor across its ends. -/
theorem tag_of_name {x y name : Text} (hne : name ≠ []) (hname : ∀ e ∈ name, isNameChar e = true)
    (h : "<?".toList <:+: x ++ (name ++ y)) : "<?".toList <:+: x ∨ "<?".toList <:+: y := by
  have hchar : ∀ e ∈ ['<', '?'], e ∉ name := by
    intro e he hmem
    have hchar := hname e hmem
    obtain rfl | rfl : e = '<' ∨ e = '?' := by simpa using he
    · exact absurd hchar (by decide)
    · exact absurd hchar (by decide)
  obtain h | h | ⟨-, h⟩ := infix_of_append h
  · exact .inl h
  · obtain h | h | ⟨h, -⟩ := infix_of_append h
    · exact absurd (h.subset (by simp)) (hchar '<' (by simp))
    · exact .inr h
    · exact absurd (List.mem_of_getLast? h) (hchar '<' (by simp))
  · rw [List.head?_append_of_ne_nil _ hne] at h
    exact absurd (List.mem_of_head? h) (hchar '?' (by simp))

theorem tag_of_renamed {name : Text} (hname : IsCallName name)
    (h : "<?".toList <:+: (c.renamed name).pieces.flatMap Piece.text) :
    "<?".toList <:+: c.pieces.flatMap Piece.text := by
  obtain ⟨n, rfl, hn⟩ := hname.chars
  rw [ChainCall.pieces_renamed, List.flatMap_append, List.flatMap_cons] at h
  rw [c.pieces_eq, List.flatMap_append, List.flatMap_cons]
  obtain h | h := tag_of_name (by simp) (List.forall_mem_cons.mpr ⟨by decide, hn⟩) h
  · exact h.trans (List.prefix_append _ _).isInfix
  · exact h.trans ((List.suffix_append _ _).trans (List.suffix_append _ _)).isInfix

theorem isUse_of_renamed {name : Text} (hname : name = linkingCall ∨ name = coveringCall)
    (h : ∃ w ∈ (c.renamed name).pieces.filterMap wordOf, isUse w) :
    ∃ w ∈ c.pieces.filterMap wordOf, isUse w := by
  obtain ⟨w, hw, huse⟩ := h
  rw [(c.renamed name).words] at hw
  rw [c.words]
  obtain rfl | hw := List.mem_cons.mp hw
  · cases huse.1
  obtain rfl | hw := List.mem_cons.mp hw
  · have hsame : Text.sameLetters name "use" = true := huse.2
    obtain rfl | rfl := hname <;> exact absurd hsame (by decide)
  · exact ⟨w, List.mem_cons_of_mem _ (List.mem_cons_of_mem _ hw), huse⟩

/-- The splice that gives a call of a chain another of the two names is a change of the chain. -/
theorem changes_of_rename {start : Nat} {splices : List Splice} {A' : List Piece} {name : Text}
    (hsp : Spaced (Source.cut source)) (hcut : Source.cut source = A ++ (c.pieces ++ Q))
    (reach : Reaches l start (countIn A)) (hA : Closes A)
    (h : Changes l start ("<?".toList <:+: source) A splices A') (hc : c.Plain)
    (hold : c.name = linkingCall ∨ c.name = coveringCall)
    (hnew : name = linkingCall ∨ name = coveringCall) (imports : Imports) :
    Changes l start ("<?".toList <:+: source) (A ++ c.pieces)
      (splices ++ [.replace (c.read imports (Reading.extent A)).nameSpan name])
      (A' ++ (c.renamed name).pieces) := by
  have hcalls := calls_of_renamed hsp hcut hA.ne_nil hc hold hnew
  have hchange : Change l start A c.pieces (c.renamed name).pieces [] :=
    .calls reach hA (.inr (callBlock_of_plain hc hold)) hcalls (isUse_of_renamed hnew)
  have hstart : Reading.extent A + c.nameAt =
      Reading.extent A + Text.width (c.front.flatMap Piece.text) := by
    simp [ChainCall.nameAt, ChainCall.front, Reading.extent, Nat.add_assoc]
  have htag : "<?".toList <:+: (c.renamed name).pieces.flatMap Piece.text →
      "<?".toList <:+: source := by
    intro ht
    refine (tag_of_renamed (isCallName_of_mem hnew) ht).trans ?_
    rw [source_eq hcut, List.flatMap_append, List.flatMap_append]
    exact (List.prefix_append _ _).isInfix.trans (List.suffix_append _ _).isInfix
  have hsnoc := Changes.snoc (R := []) h hchange
    (s := .replace (c.read imports (Reading.extent A)).nameSpan name)
    ⟨⟨c.front.flatMap Piece.text, c.name, c.back.flatMap Piece.text, by simp [c.pieces_eq],
      by simp [c.pieces_renamed, Splice.text], hstart, congrArg (· + Text.width c.name) hstart⟩⟩ htag
  simpa using hsnoc

/-- The splice that takes a call out of a chain is a change of the chain. -/
theorem changes_of_removal {start : Nat} {T : Prop} {splices : List Splice} {A' : List Piece}
    (reach : Reaches l start (countIn A)) (hA : Closes A) (h : Changes l start T A splices A')
    (hc : c.Plain) (hname : c.name = linkingCall ∨ c.name = coveringCall) (imports : Imports) :
    Changes l start T (A ++ c.pieces)
      (splices ++ [.delete ⟨(c.read imports (Reading.extent A)).gap.start,
        (c.read imports (Reading.extent A)).stop⟩]) A' := by
  have hchange : Change l start A c.pieces [] [] :=
    .calls reach hA (.inr (callBlock_of_plain hc hname)) .nil (by simp)
  have hsnoc := Changes.snoc (R := []) h hchange
    (s := .delete ⟨(c.read imports (Reading.extent A)).gap.start,
      (c.read imports (Reading.extent A)).stop⟩)
    ⟨⟨[], c.pieces.flatMap Piece.text, [], by simp, rfl, rfl, rfl⟩⟩ (by simp)
  simpa using hsnoc

end Crosslink.FluentChain
