import Crosslink.Proofs.Declaring

/-!
# Calls that are written

The call that is written for a link is cut into the pieces it is made of wherever it stands after a
call, and read there it declares that link, given that its argument can be read back.

* §1 `exists_entry`, an argument as pieces.
* §2 `exists_written`, a call as pieces.
* §3 `changes_of_insert`, the splice that puts calls into a chain.
-/

namespace Crosslink.Source

open TokenSequence

variable {A M P Q R : List Piece} {p : Piece}

/-! ## 1. Arguments -/

theorem skipGap_skipGap (text : Text) :
    Expression.skipGap (Expression.skipGap text) = Expression.skipGap text := by
  induction text with
  | nil => rfl
  | cons c cs ih =>
    unfold Expression.skipGap at ih ⊢
    by_cases hc : Expression.isGap c = true
    · rw [List.dropWhile_cons_of_pos hc, ih]
    · rw [List.dropWhile_cons_of_neg hc, List.dropWhile_cons_of_neg hc]

theorem parse_skipGap {text : Text} {x : Expression} (h : Expression.parse text = .ok x) :
    Expression.parse (Expression.skipGap text) = .ok x := by
  unfold Expression.parse at h ⊢
  rw [skipGap_skipGap]
  simp only at h ⊢
  split at h
  · split at h
    · rename_i hrest
      rw [if_pos hrest]
      exact h
    · cases h
  · cases h

theorem not_asciiBlank_of_nameChar {c : Char} (h : isNameChar c = true) : isAsciiBlank c = false := by
  by_contra hblank
  have hmem : c = ' ' ∨ c = '\t' ∨ c = '\n' ∨ c = '\x0c' ∨ c = '\r' := by
    simpa only [isAsciiBlank, Bool.or_eq_true, decide_eq_true_eq, or_assoc, Bool.not_eq_false] using hblank
  obtain rfl | rfl | rfl | rfl | rfl := hmem <;> exact absurd h (by decide)

/-- What is read begins with no blank, once those before it are skipped. -/
theorem head_of_parse {text : Text} {x : Expression} (h : Expression.parse text = .ok x) :
    ∃ c cs, Expression.skipGap text = c :: cs ∧ isAsciiBlank c = false := by
  unfold Expression.parse at h
  cases hlabel : Expression.readLabel (Expression.skipGap text) with
  | none =>
    simp only [hlabel] at h
    split at h
    · rename_i atoms rest hatoms
      obtain ⟨c, cs, hc, hident | hmem⟩ := head_of_readAtoms hatoms
      · exact ⟨c, cs, hc, not_asciiBlank_of_nameChar (isNameChar_of_isIdentChar hident)⟩
      · refine ⟨c, cs, hc, ?_⟩
        obtain rfl | rfl | rfl : c = '\'' ∨ c = '"' ∨ c = '\\' := by simpa using hmem
        all_goals decide
    · cases h
  | some labelled =>
    obtain ⟨label, body⟩ := labelled
    unfold Expression.readLabel at hlabel
    split at hlabel
    · cases hlabel
    · rename_i ident rest hident
      obtain ⟨htext, c, n, rfl, hstart, -⟩ := readIdent_eq_some hident
      exact ⟨c, n ++ rest, htext, not_asciiBlank_of_nameChar (by simp [isNameChar, hstart])⟩

/-- Words with blanks between them, none of which is a bracket or a comma, are an item. -/
theorem item_of_words (n : Nat) (hn : M.length ≤ n)
    (hall : ∀ p ∈ M, p.kind = .blank ∨ ∃ kind ∈ operandKinds, p.kind = .token kind)
    (hfirst : ∀ p ∈ M.head?, p.kind ≠ .blank) (hlast : ∀ p ∈ M.getLast?, p.kind ≠ .blank)
    (hne : M ≠ []) : Item M := by
  induction n generalizing M with
  | zero => exact absurd (List.length_eq_zero_iff.mp (Nat.le_zero.mp hn)) hne
  | succ n ih =>
    obtain ⟨p, R, rfl⟩ := List.exists_cons_of_ne_nil hne
    obtain hblank | ⟨kind, hkind, hp⟩ := hall p (by simp)
    · exact absurd hblank (hfirst p (by simp))
    have hplain : ∀ kind ∈ operandKinds, kind.opens = false ∧ kind.closes = none ∧ kind ≠ .comma := by
      decide
    obtain ⟨hopens, hcloses, hcomma⟩ := hplain kind hkind
    have hthing : Thing [p] := .token hp hopens hcloses hcomma
    obtain ⟨g, R', rfl, hg, hR⟩ := exists_gap_of_pieces R
    obtain rfl | ⟨q, R₁, kind', rfl, hq⟩ := hR
    · rw [List.append_nil] at hall hlast ⊢
      cases hgap : g.getLast? with
      | none =>
        rw [List.getLast?_eq_none_iff.mp hgap]
        exact .one hthing
      | some q =>
        have hmem := List.mem_of_getLast? hgap
        obtain hblank | ⟨kind', -, hq⟩ := hall q (List.mem_cons_of_mem _ hmem)
        · exact absurd hblank (hlast q (by rw [List.getLast?_cons, hgap]; rfl))
        · have : kind' ∈ kindsIn g :=
            List.mem_map.mpr ⟨(kind', q.text), List.mem_filterMap.mpr ⟨q, hmem, by simp [wordOf, hq]⟩, rfl⟩
          rw [hg] at this
          cases this
    · refine .more hthing hg (ih ?_ (fun r hr => hall r (by simp [hr])) (fun r hr => ?_) (fun r hr => ?_)
        (by simp))
      · simp only [List.length_cons, List.length_append] at hn ⊢
        omega
      · obtain rfl : q = r := by simpa using hr
        simp [hq]
      · refine hlast r ?_
        rw [← List.cons_append, List.getLast?_append_of_ne_nil _ (by simp)]
        exact hr

/-- A piece of blanks is one blank. -/
theorem text_of_blank {text : Text} (h : p :: R = cutCode text) (hp : p.kind = .blank) :
    ∃ c, p.text = [c] ∧ text.head? = some c ∧ isAsciiBlank c = true := by
  cases text with
  | nil => simp [cutCode] at h
  | cons c cs =>
    rw [cutCode_cons] at h
    obtain ⟨rfl, -⟩ := List.cons.inj h
    obtain ⟨hstop, hzero⟩ := measure_of_blank hp
    refine ⟨c, by simp [hzero], rfl, ?_⟩
    by_contra hblank
    have hfalse : isAsciiBlank c = false := by simpa using hblank
    unfold stopKind at hstop
    rw [hfalse] at hstop
    repeat' split at hstop
    all_goals simp_all

theorem text_of_cuts {a t : Text} (h : Cuts a P t) : P.flatMap Piece.text = a := by
  have := congrArg (List.flatMap Piece.text) h
  rw [cutCode_flatten, List.flatMap_append, cutCode_flatten] at this
  exact (List.append_cancel_right this).symm

/-- An argument that is read, and ends with no blank, is an item with blanks before it. -/
theorem exists_entry {text t : Text} {x : Expression} (h : Expression.parse text = .ok x)
    (hlast : ∀ c ∈ text.getLast?, isAsciiBlank c = false) (ht : Breaks t) :
    ∃ e : ListEntry, Cuts text e.pieces t ∧ kindsIn e.sep = [] ∧ Item e.item ∧
      Expression.parse (e.item.flatMap Piece.text) = .ok x ∧ x.Written (e.item.filterMap wordOf) ∧
      ∀ p ∈ e.pieces, p.kind = .blank ∨ ∃ kind, p.kind = .token kind := by
  obtain ⟨g, hg, hgap⟩ := exists_gap text
  obtain ⟨c, cs, hhead, hc⟩ := head_of_parse h
  have hread := parse_skipGap h
  obtain ⟨ps, ws, hcuts, hwritten, hspells⟩ := exists_words hread ht
  have htext := text_of_cuts hcuts
  have hwords := hspells.words
  subst hwords
  have hne : ps ≠ [] := by
    rintro rfl
    rw [hhead] at htext
    cases htext
  refine ⟨⟨blanks g, ps⟩, ?_, ?_, item_of_words _ (Nat.le_refl _) (fun p hp => ?_) (fun p hp => ?_)
    (fun p hp => ?_) hne, by rw [htext]; exact hread, hwritten, ?_⟩
  · rw [hg]
    exact (solid_gap hgap).cuts.append hcuts
  · rw [kindsIn, (Spells.blanks g).words]
    rfl
  · obtain hblank | ⟨kind, hkind⟩ := hspells.blank p hp
    · exact .inl hblank
    · have hmem : (kind, p.text) ∈ ps.filterMap wordOf :=
        List.mem_filterMap.mpr ⟨p, hp, by simp [wordOf, hkind]⟩
      exact .inr ⟨kind, hwritten.kinds _ hmem, hkind⟩
  · -- the first character is no blank, so the first piece is none
    intro hblank
    obtain ⟨q, R, rfl⟩ := List.exists_cons_of_ne_nil hne
    obtain rfl : q = p := by simpa using hp
    obtain ⟨d, -, hd, hdblank⟩ := text_of_blank (p := q) (R := R ++ cutCode t) hcuts.symm hblank
    rw [hhead] at hd
    obtain rfl : c = d := by simpa using hd
    rw [hc] at hdblank
    cases hdblank
  · intro hblank
    obtain ⟨F, rfl⟩ : ∃ F, ps = F ++ [p] := ⟨_, (List.dropLast_append_getLast? p hp).symm⟩
    have hcode : cutCode (Expression.skipGap text ++ t) = F ++ p :: cutCode t := by
      rw [show cutCode (Expression.skipGap text ++ t) = _ from hcuts]
      simp
    obtain ⟨d, hd, -, hdblank⟩ := text_of_blank (cutCode_suffix hcode) hblank
    have hmem : d ∈ text.getLast? := by
      rw [hg, ← htext, List.flatMap_append]
      simp [hd]
    rw [hlast d hmem] at hdblank
    cases hdblank
  · intro p hp
    obtain hp | hp := List.mem_append.mp hp
    · exact (Spells.blanks g).blank p hp
    · exact hspells.blank p hp

/-- The class an operand names. -/
def Atom.className? : Atom → Option Text
  | .literal _ => none
  | .classConstant name => some name

/-- The names an argument is written with: its label, and the classes it names. -/
def Expression.names (x : Expression) : List Text := x.label.toList ++ x.atoms.filterMap Atom.className?

theorem Atom.Written.named {atoms : List Atom} {ws : List Word} (h : Atom.Written atoms ws) {w : Word}
    (hw : w ∈ ws) (hbegins : BeginsStatement w) : w.2 ∈ atoms.filterMap Atom.className? := by
  induction h with
  | literal value quoted =>
    obtain rfl : w = (.string, quoted) := by simpa using hw
    cases hbegins.1
  | constant name word hclass =>
    obtain rfl | rfl | rfl : w = (.name, name) ∨ w = (.doubleColon, [':', ':']) ∨ w = (.name, word) := by
      simpa using hw
    · simp [Atom.className?]
    · cases hbegins.1
    · exact absurd hbegins (not_beginsStatement_of_class hclass)
  | join left right ihl ihr =>
    rw [List.filterMap_append, List.mem_append]
    obtain hw | hw := List.mem_append.mp hw
    · exact .inl (ihl hw)
    · obtain rfl | hw := List.mem_cons.mp hw
      · cases hbegins.1
      · exact .inr (ihr hw)

/-- A word of an argument that could begin a statement is one of its names. -/
theorem Expression.Written.named {x : Expression} {ws : List Word} (h : x.Written ws) {w : Word}
    (hw : w ∈ ws) (hbegins : BeginsStatement w) : w.2 ∈ x.names := by
  cases h with
  | bare h => exact List.mem_append_right _ (h.named hw hbegins)
  | labelled label h =>
    obtain rfl | hw := List.mem_cons.mp hw
    · exact List.mem_append_left _ (by simp)
    · obtain rfl | hw := List.mem_cons.mp hw
      · cases hbegins.1
      · exact List.mem_append_right _ (h.named hw hbegins)

end Crosslink.Source

namespace Crosslink.FluentChain

open Source Source.TokenSequence

variable {source : Text} {l : TokenSequence} {A M P Q R : List Piece} {p : Piece} {imports : Imports}
  {target : Target}

/-! ## 2. Calls -/

theorem solid_arrow : Solid ['-', '>'] [⟨.token .arrow, ['-', '>']⟩] := solid_of_measure fun _ => rfl

theorem solid_name {name : Text} (h : IsCallName name) :
    Solid (name ++ ['(']) [⟨.token .name, name⟩, ⟨.token .openParen, ['(']⟩] := by
  obtain ⟨n, rfl, hn⟩ := h.chars
  have hcontinues := Continues.append_chars hn (m := []) rfl
  rw [List.append_nil] at hcontinues
  exact solid_opening (by decide) hcontinues

/-- An argument that is written for a target says it where it can be read back. -/
def ReadsBack (imports : Imports) (target : Target) : Prop :=
  argumentTarget imports ⟨Span.point 0, writeArgument imports target⟩ = some target

instance : Decidable (ReadsBack imports target) := inferInstanceAs (Decidable (_ = _))

/-- An argument that is written for a target can be read. -/
def Spelled (imports : Imports) (target : Target) : Prop :=
  (Expression.parse (writeArgument imports target)).toOption.isSome = true

instance : Decidable (Spelled imports target) := inferInstanceAs (Decidable (_ = _))

theorem spelled_of_readsBack (h : ReadsBack imports target) : Spelled imports target := by
  unfold ReadsBack argumentTarget at h
  cases hx : Expression.parse (writeArgument imports target) with
  | ok x => rw [Spelled, hx]; rfl
  | error err => simp [hx] at h

/-- The name of the call that declares a link. -/
def callName (covers : Bool) : Text := if covers then coveringCall else linkingCall

theorem callName_eq (covers : Bool) : callName covers = linkingCall ∨ callName covers = coveringCall := by
  cases covers
  · exact .inl rfl
  · exact .inr rfl

theorem last_writeArgument : ∀ c ∈ (writeArgument imports target).getLast?, isAsciiBlank c = false := by
  have hends : ∃ x d, writeArgument imports target = x ++ [d] ∧ isAsciiBlank d = false := by
    unfold writeArgument quoted
    split
    · split
      · exact ⟨_, '\'', rfl, by decide⟩
      · rename_i given _ _ _
        exact ⟨given ++ "::clas", 's', by rw [List.append_assoc]; rfl, by decide⟩
    · exact ⟨_, '\'', rfl, by decide⟩
  obtain ⟨x, d, hx, hd⟩ := hends
  intro c hc
  rw [hx, List.getLast?_concat] at hc
  obtain rfl := Option.some.inj hc
  exact hd

/-- Pieces that are blanks and tokens. -/
def Bare (ps : List Piece) : Prop := ∀ p ∈ ps, p.kind = .blank ∨ ∃ kind, p.kind = .token kind

theorem bare_blanks (g : Text) : Bare (blanks g) := (Spells.blanks g).blank

theorem Bare.append (hP : Bare P) (hQ : Bare Q) : Bare (P ++ Q) := fun p hp =>
  (List.mem_append.mp hp).elim (hP p) (hQ p)

theorem Bare.cons (kind : TokenKind) (text : Text) (hP : Bare P) : Bare (⟨.token kind, text⟩ :: P) :=
  List.forall_mem_cons.mpr ⟨.inr ⟨kind, rfl⟩, hP⟩

theorem Bare.ends (h : Bare P) : ∀ p ∈ P, ∀ d, p.kind ≠ .broken d := by
  intro p hp d
  obtain hkind | ⟨kind, hkind⟩ := h p hp <;> simp [hkind]

/-- Blanks and tokens have no seams but those after slashes. -/
theorem Bare.spaced (h : Bare P) (hslash : ∀ w ∈ P.filterMap wordOf, w.1 ≠ .other) : Spaced P := by
  constructor
  · refine List.Pairwise.isChain (List.pairwise_iff_forall_sublist.mpr fun {p q} hpq ht => ?_)
    obtain hkind | ⟨kind, hkind⟩ := h p (hpq.subset (by simp))
    · rw [ht.1] at hkind
      cases hkind
    · rw [ht.1] at hkind
      cases hkind
  · refine List.Pairwise.isChain (List.pairwise_iff_forall_sublist.mpr fun {v w} hvw he => ?_)
    subst he
    exact absurd rfl (hslash slash (hvw.subset (by simp)))

/-- The call with one item that is written after blanks. -/
def ChainCall.ofEntry (g name : Text) (e : ListEntry) (hsep : kindsIn e.sep = []) (hitem : Item e.item)
    (hbare : Bare e.pieces) : ChainCall where
  lead := blanks g
  arrow := ['-', '>']
  inner := []
  name := name
  outer := []
  opener := ['(']
  entries := [e]
  rest := []
  closer := [')']
  lead_gap := by rw [kindsIn, (Spells.blanks g).words]; rfl
  inner_gap := rfl
  outer_gap := rfl
  listed := .cons (fun kind hk => by rw [hsep] at hk; cases hk) (by simp) hitem (.nil _)
  commas := by simp [Commas, kindsIn]
  ends := ((((bare_blanks g).append (by simp [Bare])).append (by simp [Bare])).append
    (Bare.append (by simpa using hbare) (by simp [Bare]))).ends

section

variable {g name : Text} {e : ListEntry} {hsep : kindsIn e.sep = []} {hitem : Item e.item}
  {hbare : Bare e.pieces}

theorem ChainCall.pieces_ofEntry : (ofEntry g name e hsep hitem hbare).pieces =
    blanks g ++ (⟨.token .arrow, ['-', '>']⟩ :: ⟨.token .name, name⟩ :: ⟨.token .openParen, ['(']⟩ ::
      (e.pieces ++ [⟨.token .closeParen, [')']⟩])) := by
  simp [pieces, head, body, ofEntry]

/-- A call that is written can be put into a chain. -/
theorem calls_of_entry (hsep : kindsIn e.sep = []) (hitem : Item e.item) (hbare : Bare e.pieces)
    (hg : ∀ c ∈ g, isAsciiBlank c = true)
    (hname : name = linkingCall ∨ name = coveringCall) {a : Text} (hcuts : Cuts a e.pieces [')'])
    {x : Expression} (hwritten : x.Written (e.item.filterMap wordOf)) :
    (ChainCall.ofEntry g name e hsep hitem hbare).pieces.flatMap Piece.text =
        g ++ (['-', '>'] ++ name ++ ['('] ++ a ++ [')']) ∧
      Calls (ChainCall.ofEntry g name e hsep hitem hbare).pieces := by
  have hwords : e.pieces.filterMap wordOf = e.item.filterMap wordOf := by
    rw [ListEntry.pieces, List.filterMap_append, words_of_gap hsep, List.nil_append]
  have hclosed : Solid (a ++ [')']) (e.pieces ++ [⟨.token .closeParen, [')']⟩]) :=
    solid_of_closed (text_of_cuts hcuts) hcuts
  have hsolid : Solid (g ++ (['-', '>'] ++ (name ++ ['('] ++ (a ++ [')']))))
      (ChainCall.ofEntry g name e hsep hitem hbare).pieces := by
    rw [ChainCall.pieces_ofEntry]
    exact (solid_blanks hg).append (solid_arrow.append ((solid_name (isCallName_of_mem hname)).append
      hclosed))
  have hbody : (ChainCall.ofEntry g name e hsep hitem hbare).body = e.pieces := by
    simp [ChainCall.body, ChainCall.ofEntry]
  have hplain : (ChainCall.ofEntry g name e hsep hitem hbare).Plain := by
    constructor
    · intro kind hk
      rw [hbody, kindsIn, hwords] at hk
      exact listKinds_of_written hwritten kind hk
    · rw [hbody, hwords]
      exact hwritten.harmless
  have hspaced : Spaced (ChainCall.ofEntry g name e hsep hitem hbare).pieces := by
    refine Bare.spaced ?_ fun w hw hkind => ?_
    · rw [ChainCall.pieces_ofEntry]
      exact (bare_blanks g).append (.cons _ _ (.cons _ _ (.cons _ _ (hbare.append
        (.cons _ _ (by simp [Bare]))))))
    · rw [ChainCall.words, hbody, hwords] at hw
      simp only [List.mem_cons, List.mem_append, List.not_mem_nil, or_false] at hw
      obtain rfl | rfl | rfl | hw | rfl := hw
      · cases hkind
      · cases hkind
      · cases hkind
      · have := hwritten.kinds w hw
        rw [hkind] at this
        exact absurd this (by decide)
      · cases hkind
  have hlast : ((ChainCall.ofEntry g name e hsep hitem hbare).pieces.flatMap Piece.text).getLast? =
      some ')' := by
    have hends : g ++ (['-', '>'] ++ (name ++ ['('] ++ (a ++ [')']))) =
        (g ++ (['-', '>'] ++ (name ++ ['('] ++ a))) ++ [')'] := by simp
    rw [hsolid.text, hends, List.getLast?_concat]
  have hcalls := Calls.cons (callBlock_of_plain hplain hname) (by rw [hsolid.text]; exact hsolid)
    (ChainCall.closes_pieces _) hlast hspaced .nil
  rw [List.append_nil] at hcalls
  exact ⟨by rw [hsolid.text]; simp, hcalls⟩

/-- A word `use` of a call that is written is a name in its argument. -/
theorem use_of_entry (hname : name = linkingCall ∨ name = coveringCall) {x : Expression}
    (hwritten : x.Written (e.item.filterMap wordOf))
    (h : ∃ w ∈ (ChainCall.ofEntry g name e hsep hitem hbare).pieces.filterMap wordOf, isUse w) :
    ∃ n ∈ x.names, Text.sameLetters n "use" = true := by
  obtain ⟨w, hw, huse⟩ := h
  have hbody : (ChainCall.ofEntry g name e hsep hitem hbare).body.filterMap wordOf =
      e.item.filterMap wordOf := by
    simp [ChainCall.body, ChainCall.ofEntry, ListEntry.pieces, words_of_gap hsep]
  rw [ChainCall.words, hbody] at hw
  simp only [List.mem_cons, List.mem_append, List.not_mem_nil, or_false] at hw
  obtain rfl | rfl | rfl | hw | rfl := hw
  · cases huse.1
  · have hsame : Text.sameLetters name "use" = true := huse.2
    obtain rfl | rfl := hname <;> exact absurd hsame (by decide)
  · cases huse.1
  · exact ⟨w.2, hwritten.named hw ⟨huse.1, .inl huse.2⟩, huse.2⟩
  · cases huse.1

end

/-- The call that is written for a link, after blanks. -/
theorem exists_written {g : Text} (hg : ∀ c ∈ g, isAsciiBlank c = true) (h : Spelled imports target)
    (covers : Bool) : ∃ w : ChainCall,
      w.pieces.flatMap Piece.text = g ++ writeCall imports target covers ∧
      w.name = callName covers ∧ (ReadsBack imports target → w.targets imports = [some target]) ∧
      Calls w.pieces ∧
      ((∃ v ∈ w.pieces.filterMap wordOf, isUse v) →
        ∃ x, Expression.parse (writeArgument imports target) = .ok x ∧
          ∃ n ∈ x.names, Text.sameLetters n "use" = true) := by
  obtain ⟨x, hx⟩ := Option.isSome_iff_exists.mp h
  replace hx := eq_ok_of_toOption hx
  obtain ⟨e, hcuts, hsep, hitem, hread, hwritten, hbare⟩ := exists_entry (t := [')']) hx last_writeArgument
    (.cons (by decide) (by decide))
  obtain ⟨htext, hcalls⟩ := calls_of_entry hsep hitem hbare hg (callName_eq covers) hcuts hwritten
  refine ⟨_, htext.trans ?_, rfl, fun hback => ?_, hcalls,
    fun huse => ⟨x, hx, use_of_entry (callName_eq covers) hwritten huse⟩⟩
  · rw [writeCall, callName]
    rfl
  · have htarget : itemTarget imports e = some target := by
      unfold ReadsBack argumentTarget at hback
      unfold itemTarget argumentTarget
      rw [hread]
      rwa [hx] at hback
    show [itemTarget imports e] = _
    rw [htarget]

theorem Calls.append {N : List Piece} (hM : Calls M) (hN : Calls N) : Calls (M ++ N) := by
  induction hM with
  | nil => exact hN
  | cons call solid closes last spaced rest ih =>
    rw [List.append_assoc]
    exact .cons call solid closes last spaced ih

/-- The calls that are written for some links. -/
theorem exists_written_all {g : Text} (hg : ∀ c ∈ g, isAsciiBlank c = true) {targets : List Target}
    (h : ∀ t ∈ targets, Spelled imports t) (covers : Bool) : ∃ ws : List ChainCall,
      (ws.flatMap ChainCall.pieces).flatMap Piece.text =
        targets.flatMap (fun t => g ++ writeCall imports t covers) ∧
      ((∀ t ∈ targets, ReadsBack imports t) → ws.map (fun w => (w.name, w.targets imports)) =
        targets.map (fun t => (callName covers, [some t]))) ∧
      Calls (ws.flatMap ChainCall.pieces) ∧
      ((∃ v ∈ (ws.flatMap ChainCall.pieces).filterMap wordOf, isUse v) →
        ∃ t ∈ targets, ∃ x, Expression.parse (writeArgument imports t) = .ok x ∧
          ∃ n ∈ x.names, Text.sameLetters n "use" = true) := by
  induction targets with
  | nil => exact ⟨[], rfl, fun _ => rfl, .nil, by simp⟩
  | cons t ts ih =>
    obtain ⟨w, htext, hname, htargets, hcalls, huse⟩ := exists_written hg (h t (by simp)) covers
    obtain ⟨ws, htexts, hnames, hcalls', huse'⟩ := ih fun u hu => h u (List.mem_cons_of_mem _ hu)
    refine ⟨w :: ws, ?_, ?_, hcalls.append hcalls', ?_⟩
    · rw [List.flatMap_cons, List.flatMap_append, htext, htexts, List.flatMap_cons]
    · intro hback
      rw [List.map_cons, hnames fun u hu => hback u (List.mem_cons_of_mem _ hu), hname,
        htargets (hback t List.mem_cons_self), List.map_cons]
    · rintro ⟨v, hv, hvuse⟩
      rw [List.flatMap_cons, List.filterMap_append, List.mem_append] at hv
      obtain hv | hv := hv
      · exact ⟨t, by simp, huse ⟨v, hv, hvuse⟩⟩
      · obtain ⟨u, hu, hrest⟩ := huse' ⟨v, hv, hvuse⟩
        exact ⟨u, List.mem_cons_of_mem _ hu, hrest⟩

/-! ## 3. The splice -/

theorem asciiBlank_of_break {c : Char} (h : c ∈ breakChars) (hblank : isBlank c = true) :
    isAsciiBlank c = true := by
  have hall : (breakChars.all fun d => !isBlank d || isAsciiBlank d) = true := by rfl
  simpa [hblank] using List.all_eq_true.mp hall c h

/-- Blanks that stand between two tokens, and no comments with them, are ASCII blanks. -/
theorem asciiBlank_of_gap (hcode : A ++ Q = cutCode ((A ++ Q).flatMap Piece.text))
    (hgap : kindsIn A = []) (hends : ∀ p ∈ A, ∀ d, p.kind ≠ .broken d)
    (hblank : ∀ c ∈ A.flatMap Piece.text, isBlank c = true) :
    ∀ c ∈ A.flatMap Piece.text, isAsciiBlank c = true := by
  induction A with
  | nil => simp
  | cons p A ih =>
    have hbreak : p.kind.isBreak = true := by
      obtain ⟨kind, hp⟩ | hp := token_or_none p
      · rw [kindsIn_of_token hp] at hgap
        cases hgap
      · have := hends p (by simp)
        cases hk : p.kind with
        | token kind => simp [wordOf, hk] at hp
        | broken d => exact absurd hk (this d)
        | _ => rfl
    rw [List.cons_append] at hcode
    obtain ⟨c, cs, htext, hmem⟩ := head_of_isBreak hcode hbreak
    rw [htext, cutCode_cons] at hcode
    obtain ⟨rfl, hrest⟩ := List.cons.inj hcode
    have hascii : isAsciiBlank c = true :=
      asciiBlank_of_break hmem (hblank c (by simp))
    have hmeasure : Source.measure c cs = (.blank, 0) := by simp [Source.measure, hascii]
    rw [hmeasure, List.drop_zero] at hrest
    simp only [hmeasure, List.take_zero] at hblank ⊢
    intro d hd
    rw [List.flatMap_cons, List.mem_append] at hd
    obtain hd | hd := hd
    · obtain rfl : d = c := by simpa using hd
      exact hascii
    · refine ih ?_ ?_ (fun q hq => hends q (List.mem_cons_of_mem _ hq))
        (fun d hd => hblank d (by rw [List.flatMap_cons]; exact List.mem_append_right _ hd)) d hd
      · rw [hrest, cutCode_flatten]
      · rw [hmeasure] at hgap
        exact hgap

/-- The splice that puts calls into a chain is a change of it. -/
theorem changes_of_insert {start : Nat} {T : Prop} {splices : List Splice} {A' : List Piece}
    (reach : Reaches l start (countIn A)) (hA : Closes A) (h : Changes l start T A splices A')
    (hM : Calls M) (huse : ¬ ∃ v ∈ M.filterMap wordOf, isUse v)
    (htag : "<?".toList <:+: M.flatMap Piece.text → T) :
    Changes l start T A (splices ++ [.insert (Reading.extent A) (M.flatMap Piece.text)])
      (A' ++ M) := by
  have hchange : Change l start A [] M [] :=
    .calls reach hA (.inl rfl) hM fun hw => absurd hw huse
  have hsnoc := Changes.snoc (R := []) h hchange
    (s := .insert (Reading.extent A) (M.flatMap Piece.text))
    ⟨⟨[], [], [], rfl, by simp [Splice.text], rfl, rfl⟩⟩ htag
  simpa using hsnoc

end Crosslink.FluentChain
