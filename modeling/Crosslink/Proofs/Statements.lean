import Mathlib.Data.List.DropRight
import Crosslink.Proofs.Aliases
import Crosslink.Proofs.Brackets
import Crosslink.Proofs.Bypassing
import Crosslink.Proofs.Passing

/-!
# Imports of a file of statements

The word `use` has four meanings. At the top of a file and right inside a namespace it imports
classes, or functions or constants, which are no classes; behind a closure it names the variables
that the closure takes along; and in the body of a class it takes in traits. Which of them is meant
is told by the statements of the file alone: a file is a list of statements with namespaces between
or around them, and its namespace and its imports are read off this list. The walk over the tokens
comes to the same, because from the first token of a statement it goes on to the first token of the
next one, with the same braces open, and what it has taken in on the way are the imports of the
statement.

* §1 `Statement`, `Chapter`, what they import, and the words they are written with.
* §2 `wordsFrom`, the words from a token on.
* §3 `collect_block` and `partnerAt_of_words`, what stands between brackets.
* §4 `listed_to_semicolon`, a list of imports.
* §5 `collect_statement`, `collect_chapters` and `ofTokens_chapters`, the walk.

## Main statements

* `ofTokens_chapters`: the namespace and the imports of a file.
-/

namespace Crosslink.Source

open TokenSequence Imports

/-! ## §1 Statements -/

/-- A word with the case of its letters left open. -/
abbrev Spelling (word : Text) := { text : Text // Text.sameLetters text word = true }

/-- Words in which every bracket that is opened is closed. -/
abbrev Closed := { ws : List Word // settle [] (ws.map Prod.fst) = some [] }

/-- True for the words after which an import statement imports no classes. -/
def importsOther (word : Text) : Bool :=
  Text.sameLetters word "function" || Text.sameLetters word "const"

/-- One class of an import statement, with the alias it is given. -/
structure Clause where
  name : Text
  given : Option (Spelling "as" × Text) := none

namespace Clause

/-- The words of a clause. -/
def words (c : Clause) : List Word :=
  (.name, c.name) :: match c.given with
    | none => []
    | some (word, a) => [(.name, word), (.name, a)]

/-- The words of some clauses, each behind a comma. -/
def listed (cs : List Clause) : List Word := cs.flatMap fun c => (.comma, [',']) :: c.words

/-- The alias under which a clause imports a class and the full name of the class: its own name behind
what the statement puts before all names. Without an alias of its own it is the last part of the
name. -/
def imported (lead : Text) (c : Clause) : Text × Text :=
  let full := lead ++ relativeName c.name
  ((c.given.map Prod.snd).getD (full.rtakeWhile (· ≠ '\\')), full)

end Clause

instance (w : Word) : Decidable (BeginsStatement w) :=
  inferInstanceAs (Decidable (w.1 = .name ∧ (_ = true ∨ _ = true)))

/-- What a file consists of, apart from its namespaces. In blocks and in the lists of closures any words
may stand, `use` and `namespace` among them. -/
inductive Statement where
  /-- A word that is no brace and is neither `use` nor `namespace`. -/
  | word (w : Word) (plain : w.1 ≠ .openBrace ∧ w.1 ≠ .closeBrace ∧ ¬ BeginsStatement w)
  /-- The body of a class or a function, or any other block. -/
  | block (body : Closed)
  /-- The variables that a closure takes along. -/
  | captured (use : Spelling "use") (list : Closed)
  /-- Classes that are imported one by one. -/
  | classes (use : Spelling "use") (first : Clause) (more : List Clause)
      (areClasses : importsOther first.name = false)
  /-- Classes whose names begin with the same parts; a comma may stand behind the last of them. -/
  | group (use : Spelling "use") (lead : Text) (first : Clause) (more : List Clause) (comma : Bool)
      (areClasses : importsOther lead = false)
  /-- Functions or constants that are imported. -/
  | others (use : Spelling "use") (what : Text) (body : List Word) (areOthers : importsOther what = true)
      (ends : ∀ w ∈ body, w.1 ≠ .semicolon)

namespace Statement

/-- The words of a statement. -/
def words : Statement → List Word
  | word w _ => [w]
  | block body => (.openBrace, ['{']) :: (body.1 ++ [(.closeBrace, ['}'])])
  | captured use list => (.name, use.1) :: (.openParen, ['(']) :: (list.1 ++ [(.closeParen, [')'])])
  | classes use first more _ =>
    (.name, use.1) :: (first.words ++ (Clause.listed more ++ [(.semicolon, [';'])]))
  | group use lead first more comma _ =>
    (.name, use.1) :: (.name, lead) :: (.other, ['\\']) :: (.openBrace, ['{']) ::
      (first.words ++ (Clause.listed more ++ ((if comma then [(.comma, [','])] else []) ++
        [(.closeBrace, ['}']), (.semicolon, [';'])])))
  | others use what body _ _ => (.name, use.1) :: (.name, what) :: (body ++ [(.semicolon, [';'])])

/-- The classes that a statement imports. -/
def uses : Statement → List (Text × Text)
  | classes _ first more _ => (first :: more).map (Clause.imported [])
  | group _ lead first more _ _ => (first :: more).map (Clause.imported (relativeName lead ++ "\\"))
  | word _ _ | block _ | captured _ _ | others _ _ _ _ _ => []

end Statement

/-- A part of a file: a statement, or a namespace. -/
inductive Chapter where
  | statement (s : Statement)
  /-- The namespace of all that follows. -/
  | declared (ns : Spelling "namespace") (name : Text)
  /-- The namespace of the statements between its braces. -/
  | braced (ns : Spelling "namespace") (name : Option Text) (body : List Statement)

namespace Chapter

/-- The words of a part of a file. -/
def words : Chapter → List Word
  | statement s => s.words
  | declared ns name => [(.name, ns.1), (.name, name), (.semicolon, [';'])]
  | braced ns name body => (.name, ns.1) :: ((name.map fun n => (.name, n)).toList ++
      (.openBrace, ['{']) :: (body.flatMap Statement.words ++ [(.closeBrace, ['}'])]))

/-- The namespace that is declared. -/
def name? : Chapter → Option Text
  | statement _ => none
  | declared _ name => some name
  | braced _ name _ => name

/-- The classes that a part of a file imports. -/
def uses : Chapter → List (Text × Text)
  | statement s => s.uses
  | declared _ _ => []
  | braced _ _ body => body.flatMap Statement.uses

end Chapter

/-- The namespace of a file: the first one that is declared with a name. -/
def namespaceIn (file : List Chapter) : Text :=
  ((file.findSome? Chapter.name?).map relativeName).getD []

variable {source : Text} {l : TokenSequence} {s : Collected} {t : Token} {i stop : Nat} {w : Word}
  {ws vs : List Word}

/-! ## §2 Words from a token on -/

/-- The words of the tokens from an index on. -/
def TokenSequence.wordsFrom (l : TokenSequence) (i : Nat) : List Word :=
  (l.tokens.toList.drop i).map fun t => (t.kind, t.text)

theorem exists_token_of_words (h : l.wordsFrom i = w :: ws) :
    ∃ t, l.tokens[i]? = some t ∧ t.kind = w.1 ∧ t.text = w.2 ∧ l.wordsFrom (i + 1) = ws := by
  unfold wordsFrom at h ⊢
  obtain ⟨t, ts, hdrop, rfl, rfl⟩ := List.map_eq_cons_iff.mp h
  refine ⟨t, ?_, rfl, rfl, ?_⟩
  · rw [← Array.getElem?_toList, ← Nat.add_zero i, ← List.getElem?_drop, hdrop]
    rfl
  · rw [← List.drop_drop, hdrop]
    rfl

theorem wordsFrom_append (h : l.wordsFrom i = ws ++ vs) : l.wordsFrom (i + ws.length) = vs := by
  induction ws generalizing i with
  | nil => exact h
  | cons w ws ih =>
    obtain ⟨t, -, -, -, hrest⟩ := exists_token_of_words h
    rw [List.length_cons, ← Nat.add_assoc, Nat.add_right_comm]
    exact ih hrest

theorem kindAt_of_words (h : l.wordsFrom i = w :: ws) : l.kindAt i = some w.1 := by
  obtain ⟨t, ht, hkind, -⟩ := exists_token_of_words h
  rw [kindAt, ht, ← hkind]
  rfl

theorem lt_size_of_words (h : l.wordsFrom i = w :: ws) : i < l.tokens.size := by
  obtain ⟨t, ht, -⟩ := exists_token_of_words h
  exact (Array.getElem?_eq_some_iff.mp ht).1

/-- The words of a source are those of its pieces. -/
theorem words_of_tokenize (hl : tokenize source = .ok l) :
    l.wordsFrom 0 = (cut source).filterMap wordOf := by
  rw [← words_tokensIn 0, ← (bare_of_tokenize hl).1, List.map_map]
  rfl

theorem kind_of_wordOf {p : Piece} (h : wordOf p = some w) : p.kind = .token w.1 := by
  unfold wordOf at h
  split at h
  · rename_i kind hk
    obtain rfl := Option.some.inj h
    exact hk
  · cases h

/-- A word is recognised by its letters. -/
theorem isWord_of_spelling {word : Text} {text : Spelling word} (hkind : t.kind = .name)
    (htext : t.text = text.1) : t.isWord word = true := by
  rw [Token.isWord, hkind, htext, text.2]
  rfl

/-! ## §3 Between brackets -/

theorem collect_of_token (ht : l.tokens[i]? = some t) :
    collect l s i = collect l (s.step l i t).1 (s.step l i t).2 := by
  conv => lhs; rw [collect]
  split
  · rename_i hnone
    rw [ht] at hnone
    cases hnone
  · rename_i u hu
    obtain rfl := Option.some.inj (ht.symm.trans hu)
    rfl

/-- A token that is no brace is passed over when it begins nothing, and also between the braces of a
class or a function. -/
theorem step_passed (hopen : t.kind ≠ .openBrace) (hclose : t.kind ≠ .closeBrace)
    (hplain : ¬ BeginsStatement (t.kind, t.text) ∨ s.braces.all id = false) :
    s.step l i t = (s, i + 1) := by
  have hword : ∀ word, t.isWord word = true → t.kind = .name ∧ Text.sameLetters t.text word = true :=
    fun word h => by simpa [Token.isWord] using h
  have hns : (s.braces.isEmpty && t.isWord "namespace") = false := by
    rw [Bool.and_eq_false_iff]
    obtain hplain | hinside := hplain
    · refine .inr (Bool.eq_false_iff.mpr fun h => hplain ?_)
      exact ⟨(hword _ h).1, .inr (hword _ h).2⟩
    · refine .inl ?_
      cases hb : s.braces with
      | nil =>
        rw [hb] at hinside
        cases hinside
      | cons b bs => rfl
  have huse : (s.braces.all id && t.isWord "use") = false := by
    rw [Bool.and_eq_false_iff]
    obtain hplain | hinside := hplain
    · refine .inr (Bool.eq_false_iff.mpr fun h => hplain ?_)
      exact ⟨(hword _ h).1, .inl (hword _ h).2⟩
    · exact .inl hinside
  rw [Collected.step, if_neg hopen, if_neg hclose, hns, huse]
  rfl

/-- What has been collected when these brackets have been opened since, none of whose braces is that
of a namespace. -/
def Imports.Collected.inside (s : Collected) (opened : List TokenKind) : Collected :=
  { s with braces := List.replicate (opened.count .openBrace) false ++ s.braces }

variable {opened opened' : List TokenKind}

/-- Words that are no braces leave the open braces as they are. -/
theorem count_of_settle {kind : TokenKind} (hopen : kind ≠ .openBrace) (hclose : kind ≠ .closeBrace)
    (h : settle opened [kind] = some opened') :
    opened'.count .openBrace = opened.count .openBrace := by
  rw [settle] at h
  by_cases hopens : kind.opens = true
  · rw [if_pos hopens] at h
    obtain rfl := Option.some.inj h
    exact List.count_cons_of_ne hopen
  · rw [if_neg hopens] at h
    cases hcloses : kind.closes with
    | none =>
      rw [hcloses] at h
      obtain rfl := Option.some.inj h
      rfl
    | some openers =>
      rw [hcloses] at h
      cases opened with
      | nil => cases h
      | cons o rest =>
        simp only at h
        split at h
        · rename_i hmem
          obtain rfl := Option.some.inj h
          have hne : o ≠ .openBrace := by
            rintro rfl
            cases kind <;> simp [TokenKind.closes] at hcloses hclose <;> subst hcloses <;>
              revert hmem <;> decide
          exact (List.count_cons_of_ne hne).symm
        · cases h

/-- Between the braces of a class or a function one token is passed over, and the braces that are open
are those among the open brackets. -/
theorem step_inside (hs : s.braces.all id = false) (h : settle opened [t.kind] = some opened') :
    (s.inside opened).step l i t = (s.inside opened', i + 1) := by
  by_cases hopen : t.kind = .openBrace
  · obtain rfl : .openBrace :: opened = opened' := by
      rw [hopen] at h
      exact Option.some.inj h
    rw [Collected.step, if_pos hopen]
    simp [Collected.inside, List.replicate_succ]
  · by_cases hclose : t.kind = .closeBrace
    · obtain rfl : opened = .openBrace :: opened' := by
        rw [hclose] at h
        cases opened with
        | nil => cases h
        | cons o rest =>
          -- only the brace that opens is closed by this one
          cases o <;> cases h
          rfl
      rw [Collected.step, if_neg hopen, if_pos hclose]
      simp [Collected.inside, List.replicate_succ]
    · have hinside : (s.inside opened).braces.all id = false := by simp [Collected.inside, hs]
      rw [step_passed hopen hclose (.inr hinside), Collected.inside, Collected.inside,
        count_of_settle hopen hclose h]

/-- Between the braces of a class or a function nothing is taken in. -/
theorem collect_inside (hs : s.braces.all id = false)
    (hsettle : settle opened (ws.map Prod.fst) = some opened') (h : l.wordsFrom i = ws ++ vs) :
    collect l (s.inside opened) i = collect l (s.inside opened') (i + ws.length) := by
  induction ws generalizing opened i with
  | nil =>
    obtain rfl := Option.some.inj hsettle
    rfl
  | cons w ws ih =>
    obtain ⟨t, ht, hkind, -, hrest⟩ := exists_token_of_words h
    rw [List.map_cons, ← List.singleton_append, settle_append] at hsettle
    obtain ⟨now, hnow, hlater⟩ := Option.bind_eq_some_iff.mp hsettle
    rw [collect_of_token ht, step_inside hs (hkind ▸ hnow), ih hlater hrest, List.length_cons,
      ← Nat.add_assoc, Nat.add_right_comm]

/-- A block is passed over. -/
theorem collect_block {body : Closed}
    (h : l.wordsFrom i = (.openBrace, ['{']) :: (body.1 ++ (.closeBrace, ['}']) :: ws)) :
    collect l s i = collect l s (i + 1 + body.1.length + 1) := by
  obtain ⟨t, ht, hopen, -, hbody⟩ := exists_token_of_words h
  obtain ⟨u, hu, hclose, -, -⟩ := exists_token_of_words (wordsFrom_append hbody)
  have hinside := collect_inside (s := { s with braces := false :: s.braces }) rfl body.2 hbody
  rw [collect_of_token ht, Collected.step, if_pos hopen]
  refine hinside.trans ?_
  rw [collect_of_token hu, Collected.step, if_neg (by simp [hclose]), if_pos hclose]
  rfl

/-- The list behind a closure ends with the partner of the parenthesis that it begins with. -/
theorem partnerAt_of_words (hl : tokenize source = .ok l) {list : Closed}
    (h : l.wordsFrom i = (.openParen, ['(']) :: (list.1 ++ (.closeParen, [')']) :: ws)) :
    l.partnerAt i = some (i + 1 + list.1.length) := by
  have hi := lt_size_of_words h
  have hwords : (cut source).filterMap wordOf =
      (l.tokens.toList.take i).map (fun t => (t.kind, t.text)) ++
        (.openParen, ['(']) :: (list.1 ++ (.closeParen, [')']) :: ws) := by
    rw [← h, wordsFrom, ← List.map_append, List.take_append_drop]
    exact (words_of_tokenize hl).symm
  obtain ⟨P, X, hX, hP, hwords⟩ := List.filterMap_eq_append_iff.mp hwords
  obtain ⟨N, p, Y, rfl, hN, hp, hwords⟩ := List.filterMap_eq_cons_iff.mp hwords
  obtain ⟨M, Z, rfl, hM, hwords⟩ := List.filterMap_eq_append_iff.mp hwords
  obtain ⟨N', q, Q, rfl, hN', hq, -⟩ := List.filterMap_eq_cons_iff.mp hwords
  have hcut : cut source = (P ++ N) ++ p :: ((M ++ N') ++ q :: Q) := by
    rw [hX, List.append_assoc, List.append_assoc]
  have hcount : countIn (P ++ N) = i := by
    rw [countIn, List.filterMap_append, hP, List.filterMap_eq_nil_iff.mpr hN, List.append_nil,
      List.length_map, List.length_take, Array.length_toList]
    omega
  have hlist : (M ++ N').filterMap wordOf = list.1 := by
    rw [List.filterMap_append, hM, List.filterMap_eq_nil_iff.mpr hN', List.append_nil]
  have hbracketed : Bracketed p (M ++ N') q := by
    refine ⟨⟨.openParen, .closeParen, kind_of_wordOf hp, kind_of_wordOf hq, rfl, rfl, _, rfl, rfl⟩,
      fun x hx => ne_broken_of_tokenize hl ?_, ?_⟩
    · rw [hcut]
      exact List.mem_append_right _ (List.mem_cons_of_mem _ (List.mem_append_left _ hx))
    · rw [kindsIn, hlist]
      exact list.2
  have hpartner := partnerAt_of_cut hl hcut hbracketed
  rw [hcount, countIn, hlist] at hpartner
  exact hpartner

/-! ## §4 Lists of imports -/

/-- The last segment of a name is what stands after its last backslash. -/
theorem lastSegment_eq (sep : Char) (text : Text) :
    Text.lastSegment [sep] text = text.rtakeWhile (· ≠ sep) := by
  unfold Text.lastSegment
  split
  · rename_i a b hsplit
    obtain ⟨rfl, hb⟩ := Text.splitLast_eq_some hsplit
    have hall : ∀ c ∈ b.reverse, decide (c ≠ sep) = true := fun c hc =>
      decide_eq_true fun he => hb (he ▸ List.mem_reverse.mp hc)
    rw [List.rtakeWhile, List.reverse_append, List.reverse_cons, List.append_assoc,
      List.takeWhile_append_of_pos hall]
    simp
  · rename_i hsplit
    have hnone := Text.splitLast_eq_none hsplit
    refine (List.rtakeWhile_eq_self_iff.mpr fun c hc => ?_).symm
    rw [decide_eq_true_eq]
    rintro rfl
    exact hnone hc

/-- A statement ends with the first semicolon. -/
theorem statementStop_of_words (h : l.wordsFrom i = ws ++ w :: vs) (hw : w.1 = .semicolon)
    (hws : ∀ v ∈ ws, v.1 ≠ .semicolon) : statementStop l i = i + ws.length := by
  have hfind : l.findKind [.semicolon] l.tokens.size i = some (i + ws.length) := by
    induction ws generalizing i with
    | nil =>
      rw [findKind, if_pos (lt_size_of_words h), kindAt_of_words h, if_pos (by simp [hw])]
      rfl
    | cons v ws ih =>
      obtain ⟨t, -, -, -, hrest⟩ := exists_token_of_words h
      have hv : v.1 ≠ .semicolon := hws v (by simp)
      rw [findKind, if_pos (lt_size_of_words h), kindAt_of_words h, if_neg (by simpa using hv),
        ih hrest fun x hx => hws x (List.mem_cons_of_mem v hx), List.length_cons]
      exact congrArg some (by omega)
  rw [statementStop, hfind]
  rfl

theorem kind_of_mem_words {c : Clause} (hw : w ∈ c.words) : w.1 = .name := by
  unfold Clause.words at hw
  obtain rfl | hw := List.mem_cons.mp hw
  · rfl
  · split at hw
    · cases hw
    · simp only [List.mem_cons, List.not_mem_nil, or_false] at hw
      obtain rfl | rfl := hw <;> rfl

theorem kind_of_mem_listed {cs : List Clause} (hw : w ∈ Clause.listed cs) :
    w.1 = .comma ∨ w.1 = .name := by
  obtain ⟨c, -, hw⟩ := List.mem_flatMap.mp hw
  obtain rfl | hw := List.mem_cons.mp hw
  · exact .inl rfl
  · exact .inr (kind_of_mem_words hw)

/-- A comma comes right after a clause, or what comes after the last one. -/
theorem exists_after_clause (cs : List Clause) (w : Word) (ws : List Word) :
    ∃ v vs, Clause.listed cs ++ w :: ws = v :: vs ∧ (v = w ∨ v = (.comma, [','])) := by
  cases cs with
  | nil => exact ⟨w, ws, rfl, .inl rfl⟩
  | cons c cs => exact ⟨_, _, rfl, .inr rfl⟩

variable {lead : Text}

/-- Between the clauses nothing is listed. -/
theorem listed_of_other (h : l.wordsFrom i = w :: ws) (hw : w.1 ≠ .name) :
    listed l lead stop i = listed l lead stop (i + 1) := by
  obtain ⟨t, ht, hkind, -, -⟩ := exists_token_of_words h
  by_cases hi : i < stop
  · conv => lhs; rw [listed]
    rw [if_pos hi, ht]
    dsimp only
    rw [if_neg (hkind ▸ hw)]
  · rw [listed, if_neg hi, listed, if_neg (by omega)]

theorem listed_of_rest (h : l.wordsFrom i = ws ++ vs) (hws : ∀ w ∈ ws, w.1 ≠ .name) :
    listed l lead (i + ws.length) i = [] := by
  induction ws generalizing i with
  | nil => rw [listed, if_neg (by simp)]
  | cons w ws ih =>
    obtain ⟨t, -, -, -, hrest⟩ := exists_token_of_words h
    rw [listed_of_other h (hws w (by simp)), List.length_cons, ← Nat.add_assoc, Nat.add_right_comm]
    exact ih hrest fun v hv => hws v (List.mem_cons_of_mem w hv)

/-- A clause is listed as what it imports. -/
theorem listed_of_clause (c : Clause) (cs : List Clause)
    (h : l.wordsFrom i = c.words ++ (Clause.listed cs ++ w :: ws)) (hw : w.1 ≠ .name) (hi : i < stop) :
    listed l lead stop i = c.imported lead :: listed l lead stop (i + c.words.length) := by
  obtain ⟨v, vs, hnext, hv⟩ := exists_after_clause cs w ws
  have hname : v.1 ≠ .name := by
    obtain rfl | rfl := hv
    · exact hw
    · simp
  rw [hnext] at h
  obtain ⟨name, given⟩ := c
  cases given with
  | none =>
    obtain ⟨t, ht, hkind, htext, hrest⟩ := exists_token_of_words h
    obtain ⟨u, hu, hukind, -⟩ := exists_token_of_words hrest
    have has : u.isWord "as" = false := by simp [Token.isWord, hukind, hname]
    conv => lhs; rw [listed]
    rw [if_pos hi, ht]
    dsimp only
    rw [if_pos hkind, hu]
    dsimp only
    rw [has, if_neg Bool.false_ne_true, htext, lastSegment_eq]
    rfl
  | some g =>
    obtain ⟨t, ht, hkind, htext, hrest⟩ := exists_token_of_words h
    obtain ⟨u, hu, hukind, hutext, hrest⟩ := exists_token_of_words hrest
    obtain ⟨a, ha, hakind, hatext, -⟩ := exists_token_of_words hrest
    conv => lhs; rw [listed]
    rw [if_pos hi, ht]
    dsimp only
    rw [if_pos hkind, hu]
    dsimp only
    rw [if_pos (isWord_of_spelling hukind hutext), ha]
    dsimp only
    rw [if_pos hakind, htext, hatext]
    rfl

theorem listed_of_clauses (cs : List Clause) (h : l.wordsFrom i = Clause.listed cs ++ w :: ws)
    (hw : w.1 ≠ .name) (hi : i + (Clause.listed cs).length ≤ stop) :
    listed l lead stop i =
      cs.map (Clause.imported lead) ++ listed l lead stop (i + (Clause.listed cs).length) := by
  induction cs generalizing i with
  | nil => rfl
  | cons c cs ih =>
    have hcomma : l.wordsFrom i =
        (.comma, [',']) :: (c.words ++ (Clause.listed cs ++ w :: ws)) := by
      rw [h, Clause.listed, List.flatMap_cons, ← Clause.listed]
      simp
    obtain ⟨t, -, -, -, hclause⟩ := exists_token_of_words hcomma
    have hlength : (Clause.listed (c :: cs)).length = 1 + c.words.length + (Clause.listed cs).length := by
      simp only [Clause.listed, List.flatMap_cons, List.length_append, List.length_cons]
      omega
    rw [hlength] at hi ⊢
    have hpos : 0 < c.words.length := by simp [Clause.words]
    rw [listed_of_other hcomma (by simp), listed_of_clause c cs hclause hw (by omega),
      ih (wordsFrom_append hclause) (by omega), List.map_cons, List.cons_append]
    exact congrArg (fun j => c.imported lead :: (cs.map (Clause.imported lead) ++ listed l lead stop j))
      (by omega)

theorem ne_semicolon_of_list {first : Clause} {more : List Clause}
    (hw : w ∈ first.words ++ Clause.listed more) : w.1 ≠ .semicolon := by
  obtain hw | hw := List.mem_append.mp hw
  · simp [kind_of_mem_words hw]
  · obtain hw | hw := kind_of_mem_listed hw <;> simp [hw]

/-- What a statement lists between a beginning without a semicolon and an end without a name. -/
theorem listed_to_semicolon (head tail : List Word) (first : Clause) (more : List Clause)
    (h : l.wordsFrom i =
      head ++ (first.words ++ (Clause.listed more ++ (tail ++ (.semicolon, [';']) :: ws))))
    (hhead : ∀ w ∈ head, w.1 ≠ .semicolon) (htail : ∀ w ∈ tail, w.1 ≠ .semicolon ∧ w.1 ≠ .name)
    (hstop : stop =
      i + head.length + first.words.length + (Clause.listed more).length + tail.length) :
    statementStop l i = stop ∧
      listed l lead stop (i + head.length) = (first :: more).map (Clause.imported lead) := by
  constructor
  · have hall : l.wordsFrom i =
        (head ++ ((first.words ++ Clause.listed more) ++ tail)) ++ (.semicolon, [';']) :: ws := by
      rw [h]
      simp only [List.append_assoc]
    rw [statementStop_of_words hall rfl, hstop]
    · simp only [List.length_append]
      omega
    · intro v hv
      obtain hv | hv := List.mem_append.mp hv
      · exact hhead v hv
      · obtain hv | hv := List.mem_append.mp hv
        · exact ne_semicolon_of_list hv
        · exact (htail v hv).1
  · have hlist := wordsFrom_append h
    have hend := wordsFrom_append (wordsFrom_append hlist)
    obtain ⟨w, vs, hnext, hw⟩ : ∃ w vs, tail ++ (.semicolon, [';']) :: ws = w :: vs ∧ w.1 ≠ .name := by
      cases tail with
      | nil => exact ⟨_, _, rfl, by simp⟩
      | cons w ts => exact ⟨w, _, rfl, (htail w (by simp)).2⟩
    have hpos : 0 < first.words.length := by simp [Clause.words]
    rw [hnext] at hlist
    rw [listed_of_clause first more hlist hw (by omega),
      listed_of_clauses more (wordsFrom_append hlist) hw (by omega), hstop,
      listed_of_rest hend fun v hv => (htail v hv).2, List.append_nil]
    rfl

theorem isOneOf_eq (hkind : t.kind = .name) :
    t.isOneOf ["function", "const"] = importsOther t.text := by
  simp [Token.isOneOf, Token.isWord, importsOther, hkind]

/-- What a statement imports is told by its list when it begins with the name of a class. -/
theorem statement_of_name (h : l.wordsFrom i = (.name, lead) :: ws) (hlead : importsOther lead = false)
    (hstop : statementStop l i = stop) :
    statement l i = (listed l ((groupName l i).getD []) stop
      (if (groupName l i).isSome then i + 3 else i), stop + 1) := by
  obtain ⟨t, ht, hkind, htext, -⟩ := exists_token_of_words h
  have hparen : l.isKind i .openParen = false := by
    rw [isKind, kindAt_of_words h]
    rfl
  have hother : (l.tokens[i]?).any (·.isOneOf ["function", "const"]) = false := by
    rw [ht, Option.any_some, isOneOf_eq hkind, htext]
    exact hlead
  have hends : (l.findKind [.semicolon] l.tokens.size i).getD l.tokens.size = stop := hstop
  unfold statement
  dsimp only
  rw [hends, hparen, hother, if_neg Bool.false_ne_true, if_neg Bool.false_ne_true]
  cases groupName l i <;> rfl

/-- Only a backslash between a name and a brace begins a group. -/
theorem groupName_of_text {v : Word} (h : l.wordsFrom i = v :: w :: ws) (hw : w.2 ≠ ['\\']) :
    groupName l i = none := by
  obtain ⟨t, ht, -, -, hrest⟩ := exists_token_of_words h
  obtain ⟨u, hu, -, hutext, -⟩ := exists_token_of_words hrest
  unfold groupName
  rw [ht, hu]
  cases l.tokens[i + 2]? with
  | none => rfl
  | some x => simp [hutext, hw]

theorem statement_of_classes {first : Clause} {more : List Clause}
    (hclass : importsOther first.name = false)
    (h : l.wordsFrom i = first.words ++ (Clause.listed more ++ (.semicolon, [';']) :: ws)) :
    statement l i = ((first :: more).map (Clause.imported []),
      i + first.words.length + (Clause.listed more).length + 1) := by
  obtain ⟨hstop, hlisted⟩ : statementStop l i = i + first.words.length + (Clause.listed more).length ∧
      listed l [] _ i = (first :: more).map (Clause.imported []) :=
    listed_to_semicolon [] [] first more h (by simp) (by simp) rfl
  have hgroup : groupName l i = none := by
    obtain ⟨name, given⟩ := first
    cases given with
    | none =>
      obtain ⟨v, vs, hnext, hv⟩ := exists_after_clause more (.semicolon, [';']) ws
      rw [hnext] at h
      refine groupName_of_text h ?_
      obtain rfl | rfl := hv <;> simp
    | some g =>
      refine groupName_of_text h fun he => ?_
      have hletters := g.1.2
      rw [show g.1.1 = ['\\'] from he] at hletters
      revert hletters
      decide
  rw [statement_of_name h hclass hstop, hgroup, Option.getD_none, Option.isSome_none,
    if_neg Bool.false_ne_true, hlisted]

theorem statement_of_group {first : Clause} {more : List Clause} (comma : Bool)
    (hclass : importsOther lead = false)
    (h : l.wordsFrom i = (.name, lead) :: (.other, ['\\']) :: (.openBrace, ['{']) ::
      (first.words ++ (Clause.listed more ++ ((if comma then [(.comma, [','])] else []) ++
        (.closeBrace, ['}']) :: (.semicolon, [';']) :: ws)))) :
    statement l i = ((first :: more).map (Clause.imported (relativeName lead ++ "\\")),
      i + 3 + first.words.length + (Clause.listed more).length + comma.toNat + 2) := by
  obtain ⟨t, ht, hkind, htext, hsep⟩ := exists_token_of_words h
  obtain ⟨u, hu, -, hutext, hbrace⟩ := exists_token_of_words hsep
  obtain ⟨x, hx, hxkind, -, -⟩ := exists_token_of_words hbrace
  have hgroup : groupName l i = some (relativeName lead ++ "\\") := by
    simp [groupName, ht, hu, hx, hkind, hutext, hxkind, htext]
  have hwords : l.wordsFrom i = [(.name, lead), (.other, ['\\']), (.openBrace, ['{'])] ++
      (first.words ++ (Clause.listed more ++ (((if comma then [(TokenKind.comma, [','])] else []) ++
        [(.closeBrace, ['}'])]) ++ (.semicolon, [';']) :: ws))) := by
    rw [h]
    simp
  have htail : ∀ w ∈ (if comma then [(TokenKind.comma, [','])] else []) ++ [(.closeBrace, ['}'])],
      w.1 ≠ .semicolon ∧ w.1 ≠ .name := by cases comma <;> simp
  obtain ⟨hstop, hlisted⟩ := listed_to_semicolon _ _ first more hwords (by simp) htail rfl
  rw [statement_of_name h hclass hstop, hgroup, Option.getD_some, Option.isSome_some, if_pos rfl]
  refine Prod.ext hlisted ?_
  cases comma <;> rfl

theorem statement_of_others {what : Text} {body : List Word} (hother : importsOther what = true)
    (hbody : ∀ w ∈ body, w.1 ≠ .semicolon)
    (h : l.wordsFrom i = (.name, what) :: (body ++ (.semicolon, [';']) :: ws)) :
    statement l i = ([], i + 1 + body.length + 1) := by
  obtain ⟨t, ht, hkind, htext, -⟩ := exists_token_of_words h
  have hparen : l.isKind i .openParen = false := by
    rw [isKind, kindAt_of_words h]
    rfl
  have hwhat : (l.tokens[i]?).any (·.isOneOf ["function", "const"]) = true := by
    rw [ht, Option.any_some, isOneOf_eq hkind, htext]
    exact hother
  have hstop : statementStop l i = i + 1 + body.length := by
    rw [← List.cons_append] at h
    rw [statementStop_of_words h rfl, List.length_cons, Nat.add_right_comm, Nat.add_assoc]
    intro v hv
    obtain rfl | hv := List.mem_cons.mp hv
    · simp
    · exact hbody v hv
  have hends : (l.findKind [.semicolon] l.tokens.size i).getD l.tokens.size = i + 1 + body.length := hstop
  unfold statement
  dsimp only
  rw [hends, hparen, hwhat, if_neg Bool.false_ne_true, if_pos rfl]

/-! ## §5 The walk -/

/-- What has been collected with these imports more. -/
def Imports.Collected.importing (s : Collected) (us : List (Text × Text)) : Collected :=
  { s with imports := { s.imports with uses := s.imports.uses ++ us } }

theorem importing_nil (s : Collected) : s.importing [] = s := by
  simp [Collected.importing]

theorem importing_append (s : Collected) (us us' : List (Text × Text)) :
    s.importing (us ++ us') = (s.importing us).importing us' := by
  simp [Collected.importing]

/-- Two words of different letters are not spelled the same. -/
theorem ne_of_spelling {word other : Text} (text : Spelling word)
    (h : Text.lower word ≠ Text.lower other) : Text.sameLetters text.1 other = false :=
  Bool.eq_false_iff.mpr fun he => h ((lower_eq text.2).symm.trans (lower_eq he))

/-- Outside of classes and functions the word `use` begins a statement. -/
theorem collect_use {use : Spelling "use"} {us : List (Text × Text)} {j : Nat}
    (hs : s.braces.all id = true) (h : l.wordsFrom i = (.name, use.1) :: ws)
    (hstatement : statement l (i + 1) = (us, j)) (hj : i < j) :
    collect l s i = collect l (s.importing us) j := by
  obtain ⟨t, ht, hkind, htext, -⟩ := exists_token_of_words h
  have hns : t.isWord "namespace" = false := by
    rw [Token.isWord, htext, ne_of_spelling use (by decide), Bool.and_false]
  rw [collect_of_token ht, Collected.step, if_neg (by simp [hkind]), if_neg (by simp [hkind]), hns,
    Bool.and_false, if_neg Bool.false_ne_true, hs, isWord_of_spelling hkind htext,
    if_pos (Bool.and_true true), hstatement]
  dsimp only
  rw [Nat.max_eq_left hj]
  rfl

/-- The walk goes from the first token of a statement to the one after it, and takes in what the
statement imports. -/
theorem collect_statement (hl : tokenize source = .ok l) (hs : s.braces.all id = true) (st : Statement)
    (h : l.wordsFrom i = st.words ++ ws) :
    collect l s i = collect l (s.importing st.uses) (i + st.words.length) := by
  cases st with
  | word w plain =>
    obtain ⟨t, ht, hkind, htext, -⟩ := exists_token_of_words h
    rw [collect_of_token ht, step_passed (hkind ▸ plain.1) (hkind ▸ plain.2.1)
      (.inl (by rw [hkind, htext]; exact plain.2.2)), Statement.uses, importing_nil]
    rfl
  | block body =>
    have hblock : l.wordsFrom i = (.openBrace, ['{']) :: (body.1 ++ (.closeBrace, ['}']) :: ws) := by
      simpa [Statement.words] using h
    rw [Statement.uses, importing_nil, collect_block hblock]
    exact congrArg (collect l s) (by simp [Statement.words]; omega)
  | captured use list =>
    have hlist : l.wordsFrom (i + 1) = (.openParen, ['(']) :: (list.1 ++ (.closeParen, [')']) :: ws) := by
      obtain ⟨-, -, -, -, hrest⟩ := exists_token_of_words h
      simpa using hrest
    have hpartner := partnerAt_of_words hl hlist
    have hstatement : statement l (i + 1) = ([], i + 1 + 1 + list.1.length + 1) := by
      rw [statement, isKind, kindAt_of_words hlist, if_pos (by simp), hpartner, Option.getD_some]
    rw [collect_use hs h hstatement (by omega)]
    exact congrArg (collect l _) (by simp [Statement.words]; omega)
  | classes use first more areClasses =>
    have hlist : l.wordsFrom (i + 1) =
        first.words ++ (Clause.listed more ++ (.semicolon, [';']) :: ws) := by
      obtain ⟨-, -, -, -, hrest⟩ := exists_token_of_words h
      simpa using hrest
    have hstatement := statement_of_classes areClasses hlist
    rw [collect_use hs h hstatement (by omega)]
    exact congrArg (collect l _) (by simp [Statement.words]; omega)
  | group use lead first more comma areClasses =>
    have hlist : l.wordsFrom (i + 1) = (.name, lead) :: (.other, ['\\']) :: (.openBrace, ['{']) ::
        (first.words ++ (Clause.listed more ++ ((if comma then [(.comma, [','])] else []) ++
          (.closeBrace, ['}']) :: (.semicolon, [';']) :: ws))) := by
      obtain ⟨-, -, -, -, hrest⟩ := exists_token_of_words h
      simpa using hrest
    have hstatement := statement_of_group comma areClasses hlist
    rw [collect_use hs h hstatement (by omega)]
    exact congrArg (collect l _) (by cases comma <;> simp [Statement.words] <;> omega)
  | others use what body areOthers ends =>
    have hlist : l.wordsFrom (i + 1) = (.name, what) :: (body ++ (.semicolon, [';']) :: ws) := by
      obtain ⟨-, -, -, -, hrest⟩ := exists_token_of_words h
      simpa using hrest
    have hstatement := statement_of_others areOthers ends hlist
    rw [collect_use hs h hstatement (by omega)]
    exact congrArg (collect l _) (by simp [Statement.words]; omega)

theorem collect_statements (hl : tokenize source = .ok l) (hs : s.braces.all id = true)
    (sts : List Statement) (h : l.wordsFrom i = sts.flatMap Statement.words ++ ws) :
    collect l s i =
      collect l (s.importing (sts.flatMap Statement.uses)) (i + (sts.flatMap Statement.words).length) := by
  induction sts generalizing s i with
  | nil => rw [List.flatMap_nil, importing_nil]; rfl
  | cons st sts ih =>
    rw [List.flatMap_cons, List.append_assoc] at h
    rw [collect_statement hl hs st h, ih (s := s.importing st.uses) hs (wordsFrom_append h),
      ← importing_append, List.flatMap_cons, List.flatMap_cons, List.length_append, Nat.add_assoc]

/-- Where no brace is open the word `namespace` declares one. -/
theorem collect_namespace {ns : Spelling "namespace"} (hs : s.braces = []) (name : Option Text)
    (h : l.wordsFrom i = (.name, ns.1) :: ((name.map fun n => (.name, n)).toList ++ w :: ws))
    (hw : w.1 ≠ .name) :
    collect l s i = collect l (s.declare name (w.1 = .openBrace))
      (i + 1 + name.toList.length + if w.1 = .openBrace then 1 else 0) := by
  obtain ⟨t, ht, hkind, htext, hrest⟩ := exists_token_of_words h
  have hns : (s.braces.isEmpty && t.isWord "namespace") = true := by
    rw [hs, isWord_of_spelling hkind htext]
    rfl
  rw [collect_of_token ht, Collected.step, if_neg (by simp [hkind]), if_neg (by simp [hkind]),
    if_pos hns]
  dsimp only
  cases name with
  | none =>
    obtain ⟨u, hu, hukind, -, -⟩ := exists_token_of_words hrest
    have hnone : (l.tokens[i + 1]?).filter (·.kind = .name) = none := by
      simp [hu, Option.filter, hukind, hw]
    rw [hnone, Option.isSome_none, if_neg Bool.false_ne_true, isKind, kindAt_of_words hrest]
    by_cases hbrace : w.1 = .openBrace <;> simp [hbrace]
  | some n =>
    obtain ⟨u, hu, hukind, hutext, hlast⟩ := exists_token_of_words hrest
    have hsome : (l.tokens[i + 1]?).filter (·.kind = .name) = some u := by
      simp [hu, Option.filter, hukind]
    rw [hsome, Option.isSome_some, if_pos rfl, isKind, kindAt_of_words hlast, Option.map_some, hutext]
    by_cases hbrace : w.1 = .openBrace <;> simp [hbrace]

theorem declare_braces (s : Collected) (name : Option Text) (braced : Bool) :
    (s.declare name braced).braces = if braced then true :: s.braces else s.braces := by
  unfold Collected.declare
  cases name with
  | none => cases braced <;> rfl
  | some n => cases s.named <;> cases braced <;> rfl

/-- The brace that closes a namespace leaves what has been taken in between. -/
theorem declare_closed (s : Collected) (name : Option Text) (us : List (Text × Text)) :
    { (s.declare name true).importing us with
      braces := ((s.declare name true).importing us).braces.tail } =
        (s.declare name false).importing us := by
  unfold Collected.importing Collected.declare
  cases name with
  | none => rfl
  | some n => cases s.named <;> rfl

/-- The walk goes from the first token of a part of a file to the one after it. -/
theorem collect_chapter (hl : tokenize source = .ok l) (hs : s.braces = []) (c : Chapter)
    (h : l.wordsFrom i = c.words ++ ws) :
    collect l s i =
      collect l ((s.declare c.name? false).importing c.uses) (i + c.words.length) := by
  cases c with
  | statement st => exact collect_statement hl (by simp [hs]) st h
  | declared ns name =>
    have hlast : l.wordsFrom (i + 2) = (.semicolon, [';']) :: ws :=
      wordsFrom_append (show l.wordsFrom i = [(.name, ns.1), (.name, name)] ++ (.semicolon, [';']) :: ws from h)
    obtain ⟨t, ht, hkind, htext, -⟩ := exists_token_of_words hlast
    have hplain : ¬ BeginsStatement (t.kind, t.text) := not_beginsStatement_of_kind (by simp [hkind])
    rw [collect_namespace hs (some name) h (by simp), Chapter.uses, importing_nil]
    refine (collect_of_token ht).trans ?_
    rw [step_passed (by simp [hkind]) (by simp [hkind]) (.inl hplain)]
    rfl
  | braced ns name body =>
    have hopen : l.wordsFrom i = (.name, ns.1) :: ((name.map fun n => (TokenKind.name, n)).toList ++
        (.openBrace, ['{']) :: (body.flatMap Statement.words ++ (.closeBrace, ['}']) :: ws)) := by
      simpa [Chapter.words] using h
    have hbody : l.wordsFrom (i + 1 + name.toList.length + 1) =
        body.flatMap Statement.words ++ (.closeBrace, ['}']) :: ws := by
      obtain ⟨-, -, -, -, hname⟩ := exists_token_of_words hopen
      obtain ⟨-, -, -, -, hrest⟩ := exists_token_of_words (wordsFrom_append hname)
      cases name <;> exact hrest
    obtain ⟨t, ht, hkind, -, -⟩ := exists_token_of_words (wordsFrom_append hbody)
    have hall : (s.declare name true).braces.all id = true := by
      rw [declare_braces, hs]
      rfl
    rw [collect_namespace hs name hopen (by simp)]
    refine (collect_statements hl hall body hbody).trans ?_
    rw [collect_of_token ht, Collected.step, if_neg (by simp [hkind]), if_pos hkind]
    dsimp only
    rw [declare_closed]
    refine congrArg (collect l _) ?_
    cases name <;> simp [Chapter.words] <;> omega

/-- The imports that are found from a part of a file on. -/
theorem collect_chapters (hl : tokenize source = .ok l) (hs : s.braces = []) (file : List Chapter)
    (h : l.wordsFrom i = file.flatMap Chapter.words) :
    collect l s i =
      ⟨if s.named then s.imports.ns
        else ((file.findSome? Chapter.name?).map relativeName).getD s.imports.ns,
        s.imports.uses ++ file.flatMap Chapter.uses⟩ := by
  induction file generalizing s i with
  | nil =>
    have hend : l.tokens[i]? = none := by
      cases ht : l.tokens[i]? with
      | none => rfl
      | some t =>
        have hi := (Array.getElem?_eq_some_iff.mp ht).1
        have hdrop : l.tokens.toList.drop i = [] := List.map_eq_nil_iff.mp h
        have := List.drop_eq_nil_iff.mp hdrop
        rw [Array.length_toList] at this
        omega
    rw [collect]
    split
    · simp
    · rename_i t ht
      rw [hend] at ht
      cases ht
  | cons c file ih =>
    rw [List.flatMap_cons] at h
    have hs' : ((s.declare c.name? false).importing c.uses).braces = [] :=
      (declare_braces s c.name? false).trans hs
    rw [collect_chapter hl hs c h, ih hs' (wordsFrom_append h)]
    unfold Collected.importing Collected.declare
    cases hname : c.name? with
    | none => simp [hname]
    | some n => cases hnamed : s.named <;> simp [hname, hnamed]

/-- The imports of a file are those of its statements, in their order, and its namespace is the first one
that is declared with a name. The file is any one whose tokens are the words of statements and
namespaces: the word `use` begins a statement wherever it stands outside of blocks. -/
theorem ofTokens_chapters (file : List Chapter) (hl : tokenize source = .ok l)
    (hwords : l.tokens.toList.map (fun t => (t.kind, t.text)) = file.flatMap Chapter.words) :
    ofTokens l = ⟨namespaceIn file, file.flatMap Chapter.uses⟩ :=
  collect_chapters hl rfl file hwords

/-- A namespace with a group of imports, a closure that takes a variable along, and words that begin
no import in its body. -/
def sampleFile : List Chapter :=
  [.braced ⟨"Namespace", by decide⟩ (some "\\A")
    [.group ⟨"use", by decide⟩ "B" ⟨"C\\D", none⟩ [⟨"E", some (⟨"as", by decide⟩, "F")⟩] true (by decide),
      .word (.name, "f") (by decide), .word (.openParen, ['(']) (by decide),
      .word (.name, "function") (by decide), .word (.openParen, ['(']) (by decide),
      .word (.closeParen, [')']) (by decide), .captured ⟨"use", by decide⟩ ⟨[(.variable, "$x")], by decide⟩,
      .block ⟨[(.name, "use"), (.name, "T"), (.semicolon, [';'])], by decide⟩,
      .word (.closeParen, [')']) (by decide), .word (.semicolon, [';']) (by decide),
      .others ⟨"use", by decide⟩ "const" [(.name, "G")] (by decide) (by decide),
      .classes ⟨"USE", by decide⟩ ⟨"\\H", none⟩ [] (by decide)]]

def sampleImports : Text := "Namespace \\A \x7b use B\\\x7bC\\D, E as F,\x7d; " ++
  "f(function () use ($x) \x7b use T; \x7d); use const G; USE \\H; \x7d"

theorem ofTokens_chapters_sample : ∃ l, tokenize sampleImports = .ok l ∧
    ofTokens l = ⟨"A", [("D", "B\\C\\D"), ("F", "B\\E"), ("H", "H")]⟩ := by
  have h : (tokenize sampleImports).toOption.any (fun l =>
      l.tokens.toList.map (fun t => (t.kind, t.text)) = sampleFile.flatMap Chapter.words) = true := by
    decide +kernel
  cases hl : tokenize sampleImports with
  | error e =>
    rw [hl] at h
    cases h
  | ok l =>
    rw [hl] at h
    exact ⟨l, rfl, (ofTokens_chapters sampleFile hl (of_decide_eq_true h)).trans (by decide)⟩

end Crosslink.Source
