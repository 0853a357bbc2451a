import Crosslink.Proofs.Frames

/-!
# Changes of a chain

An edit changes the chain of a test in a few places. Each change takes whole calls out of the chain
and puts others in, or it takes arguments out of a call, from the front of the list or from its end.
After each the source is read as before, but for that chain.

* §1 Calls taken out and put in.
* §2 Arguments taken out.
* §3 `Change`, one change of a chain, and `Change.frame`.
* §4 `Change.begins`, a change found again in a source that begins alike.
-/

namespace Crosslink.FluentChain

open Source Source.TokenSequence Source.Inserted

variable {source : Text} {l : TokenSequence} {A B M N Q : List Piece} {p : Piece} {o c : Nat}
  {keyword : Keyword}

/-! ## 1. Calls -/

/-- A source, and what it is when the chain of the test called at the token `o` has been changed
after the pieces `A`: it is cut into the pieces `R`. -/
structure Changed (o : Nat) (source : Text) (l : TokenSequence) (R : List Piece)
    (l' : TokenSequence) : Prop where
  cut : cut (R.flatMap Piece.text) = R
  read : tokenize (R.flatMap Piece.text) = .ok l'
  spaced : Spaced R
  frame : Frame o source l (R.flatMap Piece.text) l'
  tagged : "<?".toList <:+: source → "<?".toList <:+: R.flatMap Piece.text
  imports : Imports.ofTokens l' = Imports.ofTokens l

theorem Changed.trans {R S : List Piece} {l' l'' : TokenSequence} (h : Changed o source l R l')
    (h' : Changed o (R.flatMap Piece.text) l' S l'') : Changed o source l S l'' :=
  ⟨h'.cut, h'.read, h'.spaced, h.frame.trans h'.frame, fun ht => h'.tagged (h.tagged ht),
    h'.imports.trans h.imports⟩

theorem Changed.refl (h : Source.cut source = A) (hl : tokenize source = .ok l) (hsp : Spaced A) :
    Changed o source l A l := by
  obtain rfl := source_eq h
  exact ⟨h, hl, hsp, Frame.refl o _ l, id, rfl⟩

/-- The closing parenthesis that a chain comes to. -/
theorem close_of_reaches (hl : l.Nested) (hs : siteAt l o = some (keyword, c)) {k : Nat}
    (h : Reaches l (c + 1) k) : ∃ y, k = y + 1 ∧ o < y ∧ l.kindAt y = some .closeParen := by
  obtain ⟨-, hopen, hpartner⟩ := siteAt_eq_some hs
  have hlt := lt_of_openParen hl hopen hpartner
  obtain rfl | ⟨q, e, rfl, hr, hcall⟩ := h.last
  · exact ⟨c, rfl, by omega, of_decide_eq_true (isKind_close hl hopen hpartner)⟩
  · have hle := hr.le hl
    have hqe := hcall.lt hl
    exact ⟨e, rfl, by omega, of_decide_eq_true (isKind_close hl hcall.opener hcall.partner)⟩

theorem close_of_siteAt (hl : l.Nested) (hs : siteAt l o = some (keyword, c)) :
    l.kindAt c = some .closeParen := by
  obtain ⟨-, hopen, hpartner⟩ := siteAt_eq_some hs
  exact of_decide_eq_true (isKind_close hl hopen hpartner)

/-- The last piece before a place in a chain is a closing parenthesis. -/
structure Closes (A : List Piece) : Prop where
  last : ∃ A₀ p, A = A₀ ++ [p] ∧ p.kind = .token .closeParen

theorem Closes.ne_nil (h : Closes A) : A ≠ [] := by
  obtain ⟨A₀, p, rfl, -⟩ := h.last
  simp

theorem Closes.holds (h : Closes A) : Holds A := by
  obtain ⟨A₀, p, rfl, hp⟩ := h.last
  exact .of_last hp (by decide)

theorem CallBlock.ne_nil (h : CallBlock M) : M ≠ [] := by
  rintro rfl
  obtain ⟨_, _, _, _, _, hwords, -⟩ := h.words
  cases hwords

/-- The kinds of the tokens of a call begin and end no statement. -/
theorem CallBlock.kinds (h : CallBlock M) :
    ∀ kind ∈ kindsIn M, kind ∉ [TokenKind.openBrace, .closeBrace, .semicolon] := by
  obtain ⟨arrow, name, opener, closer, ws, hwords, -, hws⟩ := h.words
  intro kind hkind
  rw [kindsIn, hwords] at hkind
  simp only [List.map_cons, List.map_append, List.map_nil, List.mem_cons, List.mem_append,
    List.mem_map, List.not_mem_nil, or_false] at hkind
  obtain rfl | rfl | rfl | ⟨w, hw, rfl⟩ | rfl := hkind
  · decide
  · decide
  · decide
  · have := hws w hw
    simp only [listKinds, operandKinds, List.mem_cons, List.not_mem_nil, or_false] at this
    obtain he | he | he | he | he | he := this <;> rw [he] <;> decide
  · decide

/-- A call put into a chain is passed over by the walk that collects imports. -/
theorem CallBlock.passes {source' : Text} {l' : TokenSequence} (hM : CallBlock M)
    (hl' : tokenize source' = .ok l') (hcut' : Source.cut source' = A ++ (M ++ Q))
    (hc : l.kindAt c = some .closeParen) (hlt : c < countIn A)
    (hlast : l.kindAt (countIn A - 1) = some .closeParen) :
    Passes l l' c (countIn A) (countIn M) := by
  refine passes_of_words hl' hcut' hM.harmless hM.kinds hlt hc fun hname => ?_
  rw [hlast] at hname
  cases hname

/-- With a call more in its chain, or one less, a test is the only one that may have changed. -/
theorem frame_of_call {source' : Text} {l' : TokenSequence} (hl : tokenize source = .ok l)
    (hl' : tokenize source' = .ok l') (hcut : Source.cut source = A ++ Q)
    (hcut' : Source.cut source' = A ++ (M ++ Q)) {block : Array Token}
    (hins : Inserted (A.filterMap wordOf).length (M.filterMap wordOf).length block
      (A.flatMap Piece.text) (M.flatMap Piece.text) l l')
    (hs : siteAt l o = some (keyword, c)) (hreach : Reaches l (c + 1) (countIn A))
    (hM : CallBlock M) : Frame o source l source' l' := by
  obtain ⟨y, hy, hoy, hclose⟩ := close_of_reaches hins.nested hs hreach
  have hk : (A.filterMap wordOf).length = y + 1 := hy
  have hstands := hM.stands hins hl' hcut'
  rw [hk] at hins hstands
  rw [hy] at hreach
  have hsource : source = A.flatMap Piece.text ++ Q.flatMap Piece.text := by
    conv => lhs; rw [source_eq hcut]
    simp
  have hsource' : source' =
      A.flatMap Piece.text ++ (M.flatMap Piece.text ++ Q.flatMap Piece.text) := by
    conv => lhs; rw [source_eq hcut']
    simp
  rw [hsource] at hl ⊢
  rw [hsource'] at hl' ⊢
  obtain ⟨x, hgraft⟩ := graft_of_call hins hl hl' hstands hclose
  exact hgraft.frame hs (by omega) hreach

/-- A call is taken out of a chain. -/
theorem exists_without_call (hl : tokenize source = .ok l) (hcut : Source.cut source = A ++ (M ++ Q))
    (hsp : Spaced (A ++ (M ++ Q))) (hs : siteAt l o = some (keyword, c))
    (hreach : Reaches l (c + 1) (countIn A)) (hA : Closes A) (hM : CallBlock M)
    (hapart : Apart l c (countIn A + countIn M)) :
    ∃ l', Changed o source l (A ++ Q) l' ∧ Apart l' c (countIn A) ∧
      ((∃ w ∈ M.filterMap wordOf, isUse w) → Sheltered l' (countIn A)) := by
  obtain ⟨A₀, p, rfl, hp⟩ := hA.last
  have hne : M ++ Q ≠ [] := by simp [hM.ne_nil]
  have hnew : Source.cut ((A₀ ++ [p] ++ Q).flatMap Piece.text) = A₀ ++ [p] ++ Q := by
    have := cut_without_of_seals (P := A₀) (by simpa using hcut) (by rw [Piece.seals, hp]; rfl) hne
    simpa using this
  obtain ⟨l₀, block, hl₀, hins⟩ := exists_without_block hnew hcut hM.isBlock hl
  have hb := begins_of_cut hcut hnew hl hl₀
  have hle := hreach.le hb.nested
  have hs₀ := siteAt_begins hs hb (by rw [← countIn]; omega)
  have hreach₀ := hreach.begins hb (Nat.le_refl _)
  obtain ⟨y, hy, -, hclose⟩ := close_of_reaches hins.nested hs₀ hreach₀
  have hpasses := hM.passes (c := c) hl hcut (close_of_siteAt hins.nested hs₀) (by omega)
    (by rw [hy]; exact hclose)
  obtain ⟨himports, hapart₀, hshelter⟩ := ofTokens_without hins hpasses hapart
  refine ⟨l₀, ⟨hnew, hl₀, hsp.without hA.holds,
    (frame_of_call hl₀ hl hnew hcut hins hs₀ hreach₀ hM).symm,
    fun ht => (tag_of_cut hcut (by simp) hne ht).trans ⟨[], Q.flatMap Piece.text, by simp⟩,
    himports.symm⟩, hapart₀, ?_⟩
  rintro ⟨⟨kind, text⟩, hw, rfl, huse⟩
  obtain ⟨j, hj, hget⟩ := List.getElem_of_mem hw
  exact hshelter ⟨j, text, hj, by rw [wordAt_block hl hcut hj, List.getElem?_eq_getElem hj, hget], huse⟩

theorem solid_of_closeParen {text : Text} {R : List Piece} (h : p :: R = cutCode text)
    (hp : p.kind = .token .closeParen) : p.text = [')'] ∧ Solid p.text [p] := by
  cases text with
  | nil => simp [cutCode] at h
  | cons d ds =>
    rw [cutCode_cons] at h
    obtain ⟨rfl, -⟩ := List.cons.inj h
    obtain ⟨hstop, hzero⟩ | ⟨-, -, hm⟩ := measure_of_sealing hp rfl
    · have hd : d = ')' := by
        revert hstop
        unfold stopKind
        repeat' split
        all_goals simp_all
      subst hd
      simp only [hzero, List.take_zero]
      exact ⟨trivial, solid_stop rfl⟩
    · rw [hm] at hp
      cases hp

/-- Calls that can be put into a chain one after the other. -/
inductive Calls : List Piece → Prop
  | nil : Calls []
  | cons {M N : List Piece} (call : CallBlock M) (solid : Solid (M.flatMap Piece.text) M)
      (closes : Closes M) (last : (M.flatMap Piece.text).getLast? = some ')') (spaced : Spaced M)
      (rest : Calls N) : Calls (M ++ N)

/-- A source, and what it is when the calls `N` have been put into the chain of the test called at
the token `o`, after the pieces `A`: it is cut into the pieces `R`. -/
structure Grown (o : Nat) (source : Text) (l : TokenSequence) (A N R : List Piece)
    (l' : TokenSequence) : Prop where
  cut : cut (R.flatMap Piece.text) = R
  read : tokenize (R.flatMap Piece.text) = .ok l'
  frame : Frame o source l (R.flatMap Piece.text) l'
  tagged : "<?".toList <:+: source → "<?".toList <:+: R.flatMap Piece.text
  /-- What is imported stays the same when no import reaches from a parenthesis before the place to
  the place, and no import begins in the calls. -/
  imports : ∀ d, l.kindAt d = some .closeParen → d < countIn A → Apart l d (countIn A) →
    ((∃ w ∈ N.filterMap wordOf, isUse w) → Sheltered l (countIn A)) →
    Imports.ofTokens l' = Imports.ofTokens l ∧ Apart l' d (countIn A) ∧
      (Sheltered l (countIn A) → Sheltered l' (countIn A))

/-- A call is put into a chain. -/
theorem exists_with_call (hl : tokenize source = .ok l) (hcut : Source.cut source = A ++ Q)
    (hs : siteAt l o = some (keyword, c)) (hreach : Reaches l (c + 1) (countIn A)) (hA : Closes A)
    (hM : CallBlock M) (hsolid : Solid (M.flatMap Piece.text) M)
    (hlast : (M.flatMap Piece.text).getLast? = some ')')
    (htag : "<?".toList <:+: M.flatMap Piece.text → "<?".toList <:+: source) :
    ∃ l', Grown o source l A M (A ++ (M ++ Q)) l' := by
  obtain ⟨A₀, p, rfl, hp⟩ := hA.last
  obtain ⟨y, hy, hoy, hclose⟩ := close_of_reaches (nested_of_tokenize hl) hs hreach
  have hA₀ : A₀ ≠ [] := by
    rintro rfl
    have : countIn ([] ++ [p]) ≤ 1 := List.length_filterMap_le _ _
    omega
  have hcut₀ : Source.cut source = A₀ ++ p :: Q := by simpa using hcut
  have hcode := cut_suffix hcut₀ hA₀
  obtain ⟨htext, hpsolid⟩ := solid_of_closeParen hcode hp
  have hnew : Source.cut ((A₀ ++ [p] ++ (M ++ Q)).flatMap Piece.text) = A₀ ++ [p] ++ (M ++ Q) := by
    have := cut_with hcut₀ (.inl hA₀) hpsolid ⟨')', [], htext, by decide, fun h => absurd h (by decide)⟩
      (by rw [htext]; decide) hsolid (by rw [hlast]; decide) htag
    simpa using this
  obtain ⟨l', block, hl', hins⟩ := exists_with_block hcut hnew hM.isBlock hl
  refine ⟨l', hnew, hl', frame_of_call hl hl' hcut hnew hins hs hreach hM, fun ht => ?_,
    fun d hd hlt hapart huse => ?_⟩
  · have hflat : (A₀ ++ [p] ++ (M ++ Q)).flatMap Piece.text = (A₀ ++ [p]).flatMap Piece.text ++
        (M.flatMap Piece.text ++ Q.flatMap Piece.text) := by simp
    rw [source_eq hcut, List.flatMap_append] at ht
    rw [hflat]
    obtain ht | ht | ⟨hcross, -⟩ := infix_of_append ht
    · exact ht.trans (List.prefix_append _ _).isInfix
    · exact ht.trans ((List.suffix_append _ _).trans (List.suffix_append _ _)).isInfix
    · simp [htext] at hcross
  · refine ofTokens_with hins (hM.passes hl' hnew hd hlt (by rw [hy]; exact hclose)) hapart
      fun j text hj hword hu => ?_
    rw [countIn, wordAt_block hl' hnew hj] at hword
    exact huse ⟨_, List.mem_of_getElem? hword, rfl, hu⟩

/-- Calls are put into a chain. -/
theorem exists_grown (hN : Calls N) (hl : tokenize source = .ok l)
    (hcut : Source.cut source = A ++ Q) (hs : siteAt l o = some (keyword, c))
    (hreach : Reaches l (c + 1) (countIn A)) (hA : Closes A)
    (htag : "<?".toList <:+: N.flatMap Piece.text → "<?".toList <:+: source) :
    ∃ l', Grown o source l A N (A ++ (N ++ Q)) l' := by
  induction hN with
  | nil =>
    obtain rfl := source_eq hcut
    exact ⟨l, hcut, hl, Frame.refl o _ l, id, fun d _ _ hapart _ => ⟨rfl, hapart, id⟩⟩
  | @cons M N call solid closes last spaced rest ih =>
    rw [List.flatMap_append] at htag
    obtain ⟨l₁, h₁⟩ := ih fun ht => htag (ht.trans (List.suffix_append _ _).isInfix)
    have hb := begins_of_cut hcut h₁.cut hl h₁.read
    have hle := hreach.le hb.nested
    obtain ⟨l₂, h₂⟩ := exists_with_call h₁.read h₁.cut (siteAt_begins hs hb (by rw [← countIn]; omega))
      (hreach.begins hb (Nat.le_refl _)) hA call solid last
      fun ht => h₁.tagged (htag (ht.trans (List.prefix_append _ _).isInfix))
    rw [List.append_assoc]
    refine ⟨l₂, h₂.cut, h₂.read, h₁.frame.trans h₂.frame, fun ht => h₂.tagged (h₁.tagged ht),
      fun d hd hlt hapart huse => ?_⟩
    rw [List.filterMap_append] at huse
    obtain ⟨himports₁, hapart₁, hshelter₁⟩ := h₁.imports d hd hlt hapart <| by
      rintro ⟨w, hw, hu⟩
      exact huse ⟨w, List.mem_append_right _ hw, hu⟩
    have hd₁ : l₁.kindAt d = some .closeParen := by rw [hb.kindAt hlt, hd]
    obtain ⟨himports₂, hapart₂, hshelter₂⟩ := h₂.imports d hd₁ hlt hapart₁ <| by
      rintro ⟨w, hw, hu⟩
      exact hshelter₁ (huse ⟨w, List.mem_append_left _ hw, hu⟩)
    exact ⟨himports₂.trans himports₁, hapart₂, fun hu => hshelter₂ (hshelter₁ hu)⟩

/-- Calls that are put after a token bring no seams. -/
theorem Calls.spaced (hN : Calls N) (hsp : Spaced (A ++ Q)) (hA : Closes A) :
    Spaced (A ++ (N ++ Q)) := by
  induction hN with
  | nil => exact hsp
  | cons call solid closes last spaced rest ih =>
    rw [List.append_assoc]
    exact ih.with spaced hA.holds closes.holds

/-- Calls are put into a chain of a source without seams. -/
theorem exists_with_calls (hN : Calls N) (hl : tokenize source = .ok l)
    (hcut : Source.cut source = A ++ Q) (hsp : Spaced (A ++ Q))
    (hs : siteAt l o = some (keyword, c)) (hreach : Reaches l (c + 1) (countIn A)) (hA : Closes A)
    (htag : "<?".toList <:+: N.flatMap Piece.text → "<?".toList <:+: source)
    (hapart : Apart l c (countIn A))
    (huse : (∃ w ∈ N.filterMap wordOf, isUse w) → Sheltered l (countIn A)) :
    ∃ l', Changed o source l (A ++ (N ++ Q)) l' ∧ Apart l' c (countIn A) := by
  obtain ⟨l', h⟩ := exists_grown hN hl hcut hs hreach hA htag
  have hl₀ := nested_of_tokenize hl
  have hlt : c < countIn A := by have := hreach.le hl₀; omega
  obtain ⟨himports, hapart', -⟩ := h.imports c (close_of_siteAt hl₀ hs) hlt hapart huse
  exact ⟨l', ⟨h.cut, h.read, hN.spaced hsp hA, h.frame, h.tagged, himports⟩, hapart'⟩

/-! ## 2. Arguments -/

/-- What stands on a walk over a list pairs there. -/
theorem partner_of_walks (hl : l.Nested) {f g : Option (Nat × Nat)} {i j : Nat}
    {S : List (Nat × Nat)} (hw : Walks l f i S g j) {u q : Nat} (hiu : i ≤ u) (huj : u < j)
    (hq : l.partnerAt u = some q) : q < j := by
  induction hw with
  | refl => omega
  | @comma f g i j S kind rest ih =>
    by_cases hu : u = i
    · subst hu
      rw [partnerAt_of_plain hl (of_decide_eq_true kind) rfl rfl] at hq
      cases hq
    · exact ih (by omega) huj
  | @item f g i j S kind rest ih =>
    have hle := rest.le
    by_cases hu : u ≤ l.lastOf i
    · have hlast : q ≤ l.lastOf i := by
        by_cases hui : u = i
        · subst hui
          unfold lastOf
          rw [hq]
          simp only
          split <;> omega
        · have hpartner := partnerAt_of_lt_lastOf (l := l) (u := i) (by omega)
          by_cases hul : u = l.lastOf i
          · subst hul
            rw [hl.partnerAt_comm hpartner] at hq
            obtain rfl := Option.some.inj hq
            omega
          · have := hl.between hpartner (i := u) (by omega) (by omega) hq
            omega
      omega
    · exact ih (by omega) huj

/-- A walk that comes to an empty slot has just begun, or it has just passed a comma. -/
theorem comma_of_walks {f g : Option (Nat × Nat)} {i j : Nat} {S : List (Nat × Nat)}
    (hw : Walks l f i S g j) (hg : g = none) :
    (i = j ∧ f = none) ∨ l.kindAt (j - 1) = some .comma := by
  induction hw with
  | refl => exact .inl ⟨rfl, hg⟩
  | comma kind rest ih =>
    obtain ⟨rfl, -⟩ | h := ih hg
    · exact .inr (of_decide_eq_true kind)
    · exact .inr h
  | item kind rest ih =>
    obtain ⟨-, h⟩ | h := ih hg
    · cases h
    · exact .inr h

theorem plain_of_kindsIn (hkinds : ∀ kind ∈ kindsIn M, kind ∈ listKinds)
    (hl : tokenize source = .ok l) (hcut : Source.cut source = A ++ (M ++ Q)) : Block M where
  ends p hp d := ne_broken_of_tokenize hl (by rw [hcut]; simp [hp]) d
  settles := settle_of_plain (fun kind hk =>
    ⟨(plain_of_list (hkinds kind hk)).1, (plain_of_list (hkinds kind hk)).2.1⟩) _

/-- Arguments are taken out of a call: in front of others, with a comma after them, or after all
that are kept, with a comma before them. -/
theorem exists_without_items (hl : tokenize source = .ok l)
    (hcut : Source.cut source = A ++ (M ++ Q))
    (hnew : Source.cut ((A ++ Q).flatMap Piece.text) = A ++ Q) (hsp : Spaced (A ++ (M ++ Q)))
    (hA : Holds A) (hs : siteAt l o = some (keyword, c)) {q y : Nat} (hreach : Reaches l (c + 1) q)
    (hcall : IsCall l q y) {S : List (Nat × Nat)} {r : Option (Nat × Nat)}
    (hwalk : Walks l none (q + 3) S r (countIn A)) (hin : countIn A + countIn M ≤ y)
    (hkinds : ∀ kind ∈ kindsIn M, kind ∈ listKinds) (hharmless : Harmless (M.filterMap wordOf))
    (hapart : Apart l c (countIn A + countIn M))
    (hends : ((countIn A = q + 3 ∨ l.kindAt (countIn A - 1) = some .comma) ∧
        (kindsIn M).getLast? = some .comma) ∨
      ((kindsIn M).head? = some .comma ∧
        ((kindsIn Q).head? = some .comma ∨ (kindsIn Q).head? = some .closeParen))) :
    ∃ l', Changed o source l (A ++ Q) l' ∧ Apart l' c (countIn A) := by
  have hlen : (kindsIn M).length = countIn M := by simp [kindsIn, countIn]
  have hM : 0 < countIn M := by
    rw [← hlen]
    refine List.length_pos_iff.mpr ?_
    rintro hnil
    rw [hnil] at hends
    obtain ⟨-, h⟩ | ⟨h, -⟩ := hends <;> cases h
  obtain ⟨l₀, block, hl₀, hins⟩ :=
    exists_without_block hnew hcut (plain_of_kindsIn hkinds hl hcut) hl
  have hb := begins_of_cut hcut hnew hl hl₀
  have hqk := hwalk.le
  rw [show (M.filterMap wordOf).length = countIn M from rfl,
    show (A.filterMap wordOf).length = countIn A from rfl] at hins
  rw [show (A.filterMap wordOf).length = countIn A from rfl] at hb
  obtain ⟨y₀, hy₀, hcall₀⟩ := (hcall.begins hb (by omega)).2 (by omega)
  have hy : y = y₀ + countIn M := by
    have hp := hins.partnerAt_lift (q + 2)
    rw [lift_of_lt (by omega), hcall.partner, hcall₀.partner, Option.map_some,
      lift_of_le hy₀] at hp
    exact Option.some.inj hp
  have hhost : Host l₀ (countIn A) (q + 2) y₀ := by
    refine ⟨hcall₀.partner, by omega, by omega, fun u v huv hu hv => ?_⟩
    have huv' : l.partnerAt u = some (v + countIn M) := by
      have hp := hins.partnerAt_lift u
      rw [lift_of_lt hu, huv, Option.map_some, lift_of_le hv] at hp
      exact hp
    by_cases hu3 : q + 3 ≤ u
    · have := partner_of_walks hb.nested hwalk hu3 hu huv'
      omega
    · by_cases hu2 : u = q + 2
      · exact .inl hu2
      · have := hb.nested.between huv' (i := q + 2) (by omega) (by omega) hcall.partner
        exact .inr ⟨by omega, by omega⟩
  have hat : ∀ j, j < countIn M → l.kindAt (countIn A + j) = (kindsIn M)[j]? := by
    intro j hj
    rw [kindAt_eq, countIn, wordAt_block hl hcut hj, kindsIn, List.getElem?_map]
  have hends₀ : ((countIn A = q + 3 ∨ l₀.kindAt (countIn A - 1) = some .comma) ∧
        l.kindAt (countIn A + countIn M - 1) = some .comma) ∨
      (l.kindAt (countIn A) = some .comma ∧
        (l₀.kindAt (countIn A) = some .comma ∨ l₀.kindAt (countIn A) = some .closeParen)) := by
    obtain ⟨hleft, hlast⟩ | ⟨hfirst, hright⟩ := hends
    · refine .inl ⟨?_, ?_⟩
      · rw [hb.kindAt (by omega)]
        exact hleft
      · rw [show countIn A + countIn M - 1 = countIn A + (countIn M - 1) by omega,
          hat _ (by omega), ← hlen, ← List.getLast?_eq_getElem?]
        exact hlast
    · refine .inr ⟨?_, ?_⟩
      · have := hat 0 hM
        rw [Nat.add_zero] at this
        rw [this, ← List.head?_eq_getElem?]
        exact hfirst
      · have hQ : l₀.kindAt (countIn A) = (kindsIn Q).head? := by
          have := wordAt_after hl₀ hnew 0
          rw [kindAt_eq, ← Nat.add_zero (countIn A), countIn, this, kindsIn, List.head?_eq_getElem?,
            List.getElem?_map]
        rw [hQ]
        exact hright
  have hgraft : Graft (countIn A) (countIn M) block (A.flatMap Piece.text) (M.flatMap Piece.text)
      (Q.flatMap Piece.text) l₀ l (q + 2) y₀ := by
    refine graft_of_items hins (by rw [← List.flatMap_append]; exact hl₀)
      (by rw [← List.flatMap_append, ← List.flatMap_append, ← source_eq hcut]; exact hl) hcall₀ hhost
      hy₀ hM (fun j hj => ?_) hends₀
    rw [hat j hj]
    have hj' : j < (kindsIn M).length := by omega
    exact ⟨_, hkinds _ (List.getElem_mem hj'), List.getElem?_eq_getElem hj'⟩
  have hle := hreach.le hb.nested
  have hlt := hcall.lt hb.nested
  have hs₀ := siteAt_begins hs hb (by omega)
  have hreach₀ : Reaches l₀ (c + 1) (y₀ + 1) :=
    (hreach.begins hb (by omega)).trans (.step hcall₀ (.refl _))
  obtain ⟨-, hopen, hpartner⟩ := siteAt_eq_some hs
  have hframe := hgraft.frame hs₀ (by have := lt_of_openParen hb.nested hopen hpartner; omega) hreach₀
  rw [← List.flatMap_append, ← List.flatMap_append, ← List.flatMap_append, ← source_eq hcut] at hframe
  have hne : M ++ Q ≠ [] := by
    intro hnil
    rw [(List.append_eq_nil_iff.mp hnil).1] at hM
    cases hM
  have hA₀ : A ≠ [] := by
    rintro rfl
    simp only [countIn, List.filterMap_nil, List.length_nil] at hqk
    omega
  obtain ⟨-, hopen₀, hpartner₀⟩ := siteAt_eq_some hs₀
  have hpasses : Passes l₀ l c (countIn A) (countIn M) := by
    refine passes_of_words hl hcut hharmless (fun kind hk => ?_) (by omega)
      (of_decide_eq_true (isKind_close hins.nested hopen₀ hpartner₀)) fun hname kind hkind => ?_
    · have := hkinds kind hk
      simp only [listKinds, operandKinds, List.mem_cons, List.not_mem_nil, or_false] at this
      obtain rfl | rfl | rfl | rfl | rfl | rfl := this <;> decide
    · obtain ⟨hleft | hleft, -⟩ | ⟨hfirst, hright⟩ := hends₀
      · rw [hleft, show q + 3 - 1 = q + 2 by omega, hcall₀.kinds.2.2] at hname
        cases hname
      · rw [hleft] at hname
        cases hname
      · have hne : ∀ kind' ∈ [TokenKind.comma, .closeParen], some kind' ≠ some kind := by
          simp only [List.mem_cons, List.not_mem_nil, or_false] at hkind
          obtain rfl | rfl | rfl := hkind <;> decide
        refine ⟨?_, by rw [hfirst]; exact hne _ (by simp)⟩
        obtain hright | hright := hright <;> rw [hright] <;> exact hne _ (by simp)
  obtain ⟨himports, hapart₀, -⟩ := ofTokens_without hins hpasses hapart
  exact ⟨l₀, ⟨hnew, hl₀, hsp.without hA, hframe.symm,
    fun ht => (tag_of_cut hcut hA₀ hne ht).trans (by
      rw [List.flatMap_append]
      exact (List.prefix_append _ _).isInfix), himports.symm⟩, hapart₀⟩

/-! ## 3. Changes -/

/-- A change of the chain that goes on at the token `start`: after the pieces `A` the pieces `M` are
taken out and the pieces `M'` put in. The pieces `B` come after. -/
inductive Change (l : TokenSequence) (start : Nat) :
    List Piece → List Piece → List Piece → List Piece → Prop
  | calls {A M M' : List Piece} (reach : Reaches l start (countIn A)) (closes : Closes A)
      (old : M = [] ∨ CallBlock M) (new : Calls M')
      (used : (∃ w ∈ M'.filterMap wordOf, isUse w) → ∃ w ∈ M.filterMap wordOf, isUse w) :
      Change l start A M M' []
  | front {A M : List Piece} {q y : Nat} {S : List (Nat × Nat)} (reach : Reaches l start q)
      (call : IsCall l q y) (walk : Walks l none (q + 3) S none (countIn A))
      (inside : countIn A + countIn M ≤ y) (kinds : ∀ kind ∈ kindsIn M, kind ∈ listKinds)
      (harmless : Harmless (M.filterMap wordOf)) (comma : (kindsIn M).getLast? = some .comma) (seals : ∀ p ∈ A.getLast?, p.seals = true) :
      Change l start A M [] []
  | back {A M B : List Piece} {p r b : Piece} {q y : Nat} {S : List (Nat × Nat)}
      {s : Option (Nat × Nat)} {kind : TokenKind} (reach : Reaches l start q) (call : IsCall l q y)
      (walk : Walks l none (q + 3) S s (countIn (A ++ [p])))
      (inside : countIn (A ++ [p]) + countIn (r :: M) ≤ y)
      (kinds : ∀ kind ∈ kindsIn (r :: M), kind ∈ listKinds)
      (harmless : Harmless ((r :: M).filterMap wordOf)) (last : p.kind = .token kind)
      (comma : (kindsIn (r :: M)).head? = some .comma) (apart : r.kind.isBreak = true)
      (next : (kindsIn (b :: B)).head? = some .comma ∨ (kindsIn (b :: B)).head? = some .closeParen)
      (apart' : b.kind.isBreak = true) : Change l start (A ++ [p]) (r :: M) [] (b :: B)

theorem head?_kindsIn_append {ps : List Piece} {kind : TokenKind}
    (h : (kindsIn ps).head? = some kind) (qs : List Piece) :
    (kindsIn (ps ++ qs)).head? = some kind := by
  rw [kindsIn_append, List.head?_append, h]
  rfl

theorem kindAt_of_last_word (hl : tokenize source = .ok l) {R : List Piece}
    (hcut : Source.cut source = A ++ R) {w : Word} (hw : (A.filterMap wordOf).getLast? = some w) :
    l.kindAt (countIn A - 1) = some w.1 := by
  have hlen : 0 < (A.filterMap wordOf).length := by
    cases hn : A.filterMap wordOf with
    | nil => rw [hn] at hw; cases hw
    | cons v vs => simp
  rw [kindAt_eq, countIn, wordAt_before hl hcut (by omega), ← List.getLast?_eq_getElem?, hw]
  rfl

/-- After a change the source is read as before, but for the chain that is changed. -/
theorem Change.changed {M' : List Piece} (h : Change l (c + 1) A M M' B)
    (hl : tokenize source = .ok l) (hcut : Source.cut source = A ++ (M ++ (B ++ Q)))
    (hsp : Spaced (A ++ (M ++ (B ++ Q)))) (hs : siteAt l o = some (keyword, c))
    (htag : "<?".toList <:+: M'.flatMap Piece.text → "<?".toList <:+: source)
    (hapart : Apart l c (countIn A + countIn M)) :
    ∃ l', Changed o source l (A ++ (M' ++ (B ++ Q))) l' ∧ Apart l' c (countIn A) := by
  cases h with
  | calls reach closes old new used =>
    rw [List.nil_append] at hcut hsp ⊢
    obtain rfl | old := old
    · have hnone : ¬ ∃ w ∈ M'.filterMap wordOf, isUse w := fun hw => by
        obtain ⟨w, hmem, -⟩ := used hw
        cases hmem
      obtain ⟨l₁, h₁, hapart₁⟩ := exists_with_calls new hl (by simpa using hcut)
        (by simpa using hsp) hs reach closes htag hapart fun hw => absurd hw hnone
      exact ⟨l₁, h₁, hapart₁⟩
    · obtain ⟨l₁, h₁, hapart₁, hshelter⟩ := exists_without_call hl hcut hsp hs reach closes old hapart
      have hb := begins_of_cut hcut h₁.cut hl h₁.read
      have hle := reach.le hb.nested
      obtain ⟨l₂, h₂, hapart₂⟩ := exists_with_calls new h₁.read h₁.cut h₁.spaced
        (siteAt_begins hs hb (by rw [← countIn]; omega)) (reach.begins hb (Nat.le_refl _)) closes
        (fun ht => h₁.tagged (htag ht)) hapart₁ fun hw => hshelter (used hw)
      exact ⟨l₂, h₁.trans h₂, hapart₂⟩
  | @front _ _ q y S reach call walk inside kinds harmless comma seals =>
    rw [List.nil_append] at hcut hsp ⊢
    have hlast : A ≠ [] := by
      rintro rfl
      have := walk.le
      simp only [countIn, List.filterMap_nil, List.length_nil] at this
      omega
    obtain ⟨A₀, p, rfl⟩ : ∃ A₀ p, A = A₀ ++ [p] :=
      ⟨_, _, (List.dropLast_append_getLast hlast).symm⟩
    have hp : p.seals = true := seals p (by simp)
    have hne : M ++ Q ≠ [] := by
      intro hnil
      rw [(List.append_eq_nil_iff.mp hnil).1] at comma
      cases comma
    have hnew : Source.cut ((A₀ ++ [p] ++ Q).flatMap Piece.text) = A₀ ++ [p] ++ Q := by
      have := cut_without_of_seals (P := A₀) (by simpa using hcut) hp hne
      simpa using this
    have hwords : countIn (A₀ ++ [p]) = q + 3 ∨
        l.kindAt (countIn (A₀ ++ [p]) - 1) = some .comma := by
      obtain ⟨h, -⟩ | h := comma_of_walks walk rfl
      · exact .inl h.symm
      · exact .inr h
    have hholds : Holds (A₀ ++ [p]) := by
      refine ⟨fun r hr => ?_, fun w hw => ?_⟩
      · obtain rfl : p = r := by simpa using hr
        rintro ⟨hmark, htag⟩
        simp only [Piece.seals, hmark, List.isSuffixOf_iff_suffix.mpr htag, Bool.not_true] at hp
        cases hp
      · rintro rfl
        have hkind := kindAt_of_last_word hl hcut hw
        obtain hfirst | hcomma := hwords
        · rw [hfirst, show q + 3 - 1 = q + 2 by omega, call.kinds.2.2] at hkind
          cases hkind
        · rw [hcomma] at hkind
          cases hkind
    exact exists_without_items hl hcut hnew hsp hholds hs reach call walk inside kinds harmless hapart
      (.inl ⟨hwords, comma⟩)
  | @back A M B p r b q y S s kind reach call walk inside kinds harmless last comma apart next apart' =>
    have hword : wordOf p = some (kind, p.text) := by simp [wordOf, last]
    -- a comma comes after the token, so it is no slash
    have hslash : (kind, p.text) ≠ slash := by
      have hchain := hsp.slashes
      rw [List.filterMap_append] at hchain
      obtain ⟨-, -, hjoin⟩ := List.isChain_append.mp hchain
      obtain ⟨w, hw, hkind⟩ : ∃ w, ((r :: M).filterMap wordOf).head? = some w ∧ w.1 = .comma := by
        rw [kindsIn, List.head?_map] at comma
        exact Option.map_eq_some_iff.mp comma
      intro he
      refine hjoin (kind, p.text) (by simp [hword]) w ?_ he hkind
      rw [List.filterMap_append, List.head?_append, hw]
      rfl
    have hcode : p :: (r :: M ++ (b :: B ++ Q)) =
        cutCode ((p :: (r :: M ++ (b :: B ++ Q))).flatMap Piece.text) :=
      cut_suffix_of_ne_markup (P := A) (by simpa using hcut) (by rw [last]; simp)
    have htext : p.text ≠ ['/'] := fun he =>
      hslash (by rw [other_of_slash hcode last he, he]; rfl)
    have hmark : b.kind = .markup → B ++ Q ≠ [] := by
      intro hb hnil
      have hword : wordOf b = none := by simp [wordOf, hb]
      rw [kindsIn_cons, hword, (List.append_eq_nil_iff.mp hnil).1] at next
      obtain h | h := next <;> cases h
    have hnew : Source.cut ((A ++ [p] ++ (b :: B ++ Q)).flatMap Piece.text) =
        A ++ [p] ++ (b :: B ++ Q) := by
      have := cut_without_of_break (P := A) (Q := B ++ Q) (by simpa using hcut) last htext apart
        apart' hmark
      simpa using this
    have hholds : Holds (A ++ [p]) := by
      refine ⟨fun s hs => ?_, fun w hw => ?_⟩
      · obtain rfl : p = s := by simpa using hs
        rintro ⟨hm, -⟩
        rw [last] at hm
        cases hm
      · rw [List.filterMap_append, List.filterMap_cons, hword] at hw
        obtain rfl : (kind, p.text) = w := by simpa using hw
        exact hslash
    rw [List.flatMap_nil] at htag
    refine exists_without_items hl hcut hnew hsp hholds hs reach call walk inside kinds harmless hapart
      (.inr ⟨comma, ?_⟩)
    exact next.imp (head?_kindsIn_append · Q) (head?_kindsIn_append · Q)

theorem Change.le {start : Nat} {M' : List Piece} (h : Change l start A M M' B) (hl : l.Nested) :
    start ≤ countIn A := by
  cases h with
  | calls reach closes old new used => exact reach.le hl
  | front reach call walk inside kinds harmless comma seals =>
    have := reach.le hl
    have := walk.le
    omega
  | back reach call walk inside kinds harmless last comma apart next apart' =>
    have := reach.le hl
    have := walk.le
    omega

/-! ## 4. Changes found again -/

/-- A change is one in every source that begins alike. -/
theorem Change.begins {start : Nat} {M' : List Piece} {l' : TokenSequence}
    (h : Change l start A M M' B) (hb : Begins (countIn (A ++ (M ++ B))) l l') :
    Change l' start A M M' B := by
  rw [countIn_append, countIn_append] at hb
  have hcall : ∀ {q y : Nat}, IsCall l q y → q + 3 ≤ countIn A → countIn A + countIn M ≤ y →
      ∃ y', IsCall l' q y' ∧ countIn A + countIn M ≤ y' := by
    intro q y hc hq hy
    obtain ⟨hin, hout⟩ := hc.begins hb (by omega)
    by_cases hk : y < countIn A + (countIn M + countIn B)
    · exact ⟨y, hin hk, hy⟩
    · obtain ⟨y', hy', hc'⟩ := hout (by omega)
      exact ⟨y', hc', by omega⟩
  cases h with
  | calls reach closes old new used => exact .calls (reach.begins hb (by omega)) closes old new used
  | front reach call walk inside kinds harmless comma seals =>
    have hle := walk.le
    obtain ⟨y', call', inside'⟩ := hcall call hle inside
    exact .front (reach.begins hb (by omega)) call' (hb.walks walk (by omega)) inside' kinds
      harmless comma seals
  | back reach call walk inside kinds harmless last comma apart next apart' =>
    have hle := walk.le
    obtain ⟨y', call', inside'⟩ := hcall call hle inside
    exact .back (reach.begins hb (by omega)) call' (hb.walks walk (by omega)) inside' kinds
      harmless last comma apart next apart'

end Crosslink.FluentChain
