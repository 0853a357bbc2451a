import Mathlib.Tactic.Tauto
import Crosslink.Source.Expression
import Crosslink.Proofs.Operands

/-!
# The grammar of arguments

An argument is read by taking the first form that fits and going on from there, never back. The
grammar says which texts there are to be read, form by form and without an order. Both agree because a
text tells by its next character which form it goes on with: no operand begins with a colon, a dot or a
blank, and what follows an identifier never belongs to it.

The one place where this takes a side condition is a backslash in single quotes. It stands for itself
unless a backslash or a quote follows, so the grammar has to say that none does.

* §1 `Identifier`, `SingleQuoted`, `DoubleQuoted` and `ClassName`, the parts of operands.
* §2 `Atom.Derived`, `Operands` and `Expression.Derived`, the grammar.
* §3 What is read is derived.
* §4 What is derived is read.

## Main statements

* `parse_exact`: the arguments that are read are those of the grammar, and what they mean.
-/

namespace Crosslink.Source

open Expression

variable {g g' i r t u v w : Text} {c : Char}

/-! ## §1 Parts of operands -/

/-- Blanks that may stand in an argument. -/
def Gap (g : Text) : Prop := ∀ c ∈ g, isGap c = true

/-- An identifier: letters, digits and underscores, the first of them no ASCII digit. -/
structure Identifier (i : Text) : Prop where
  nonempty : i ≠ []
  chars : ∀ c ∈ i, isIdentChar c = true
  start : ∀ c ∈ i.head?, c.isDigit = false

instance (i : Text) : Decidable (Identifier i) :=
  decidable_of_iff (i ≠ [] ∧ i.all isIdentChar = true ∧ (i.head?.all fun c => !c.isDigit) = true)
    ⟨fun ⟨hne, hall, hstart⟩ => ⟨hne, List.all_eq_true.mp hall, fun c hc => by
        rw [Option.mem_def.mp hc] at hstart
        simpa using hstart⟩,
      fun h => ⟨h.nonempty, List.all_eq_true.mpr h.chars, by
        cases hi : i.head? with
        | none => rfl
        | some c => simp [h.start c hi]⟩⟩

/-- What may stand between single quotes, and what it means. -/
inductive SingleQuoted : Text → Text → Prop
  | nil : SingleQuoted [] []
  | backslash {w v : Text} (rest : SingleQuoted w v) : SingleQuoted ('\\' :: '\\' :: w) ('\\' :: v)
  | quote {w v : Text} (rest : SingleQuoted w v) : SingleQuoted ('\\' :: '\'' :: w) ('\'' :: v)
  /-- A backslash before another character stands for itself. -/
  | lone {d : Char} {w v : Text} (slash : d ≠ '\\') (quote : d ≠ '\'')
      (rest : SingleQuoted (d :: w) v) : SingleQuoted ('\\' :: d :: w) ('\\' :: v)
  | plain {c : Char} {w v : Text} (slash : c ≠ '\\') (quote : c ≠ '\'') (rest : SingleQuoted w v) :
      SingleQuoted (c :: w) (c :: v)

/-- What may stand between double quotes, and what it means. A dollar sign without a backslash would
begin an interpolation. -/
inductive DoubleQuoted : Text → Text → Prop
  | nil : DoubleQuoted [] []
  | escaped {c : Char} {w v : Text} (mark : c = '\\' ∨ c = '"' ∨ c = '$') (rest : DoubleQuoted w v) :
      DoubleQuoted ('\\' :: c :: w) (c :: v)
  | newline {w v : Text} (rest : DoubleQuoted w v) : DoubleQuoted ('\\' :: 'n' :: w) ('\n' :: v)
  | tab {w v : Text} (rest : DoubleQuoted w v) : DoubleQuoted ('\\' :: 't' :: w) ('\t' :: v)
  /-- A backslash before another character stands for itself. -/
  | other {c : Char} {w v : Text} (mark : c ∉ ['\\', '"', '$', 'n', 't']) (rest : DoubleQuoted w v) :
      DoubleQuoted ('\\' :: c :: w) ('\\' :: c :: v)
  | plain {c : Char} {w v : Text} (mark : c ∉ ['\\', '"', '$']) (rest : DoubleQuoted w v) :
      DoubleQuoted (c :: w) (c :: v)

/-- The segments of a class name after its first, each with the backslash before it. -/
inductive Segments : Text → Prop
  | nil : Segments []
  | cons {i m : Text} (ident : Identifier i) (rest : Segments m) : Segments ('\\' :: (i ++ m))

/-- A class name: identifiers with backslashes between them, and perhaps one more in front. -/
inductive ClassName : Text → Prop
  | relative {i m : Text} (ident : Identifier i) (rest : Segments m) : ClassName (i ++ m)
  | rooted {i m : Text} (ident : Identifier i) (rest : Segments m) : ClassName ('\\' :: (i ++ m))

/-! ## §2 The grammar -/

/-- The texts of an operand. -/
inductive Atom.Derived : Text → Atom → Prop
  | single {w v : Text} (body : SingleQuoted w v) : Derived ('\'' :: (w ++ ['\''])) (.literal v)
  | double {w v : Text} (body : DoubleQuoted w v) : Derived ('"' :: (w ++ ['"'])) (.literal v)
  | constant {n g g' word : Text} (name : ClassName n) (gap : Gap g) (gap' : Gap g')
      (keyword : Text.sameLetters word "class" = true) :
      Derived (n ++ (g ++ (':' :: ':' :: (g' ++ word)))) (.classConstant n)

/-- The texts of operands with dots between them. -/
inductive Operands : Text → List Atom → Prop
  | one {t : Text} {a : Atom} (atom : a.Derived t) : Operands t [a]
  | more {t g g' u : Text} {a : Atom} {as : List Atom} (atom : a.Derived t) (gap : Gap g)
      (gap' : Gap g') (rest : Operands u as) : Operands (t ++ (g ++ ('.' :: (g' ++ u)))) (a :: as)

/-- The texts of an argument, but for the blanks around it. -/
inductive Expression.Derived : Text → Expression → Prop
  | bare {t : Text} {as : List Atom} (operands : Operands t as) : Derived t ⟨none, as⟩
  | labelled {i g g' t : Text} {as : List Atom} (ident : Identifier i) (gap : Gap g) (gap' : Gap g')
      (single : (g' ++ t).head? ≠ some ':') (operands : Operands t as) :
      Derived (i ++ (g ++ (':' :: (g' ++ t)))) ⟨some i, as⟩

/-- The texts of an argument, blanks around it included. -/
def Expression.Spelled (t : Text) (e : Expression) : Prop :=
  ∃ g u g', Gap g ∧ Gap g' ∧ t = g ++ (u ++ g') ∧ e.Derived u

/-! ## §3 What is read is derived -/

/-- What an operand begins with. -/
def StartsOperand (c : Char) : Prop := isIdentChar c = true ∨ c ∈ ['\'', '"', '\\']

theorem ClassName.head (h : ClassName t) :
    ∃ c cs, t = c :: cs ∧ (isIdentChar c = true ∨ c = '\\') := by
  cases h with
  | relative ident =>
    obtain ⟨c, cs, rfl⟩ := List.exists_cons_of_ne_nil ident.nonempty
    exact ⟨c, _, rfl, .inl (ident.chars c (by simp))⟩
  | rooted => exact ⟨_, _, rfl, .inr rfl⟩

theorem Operands.head {as : List Atom} (h : Operands t as) :
    ∃ c cs, t = c :: cs ∧ StartsOperand c := by
  have hatom : ∀ {u : Text} {a : Atom}, a.Derived u → ∃ c cs, u = c :: cs ∧ StartsOperand c := by
    intro u a ha
    cases ha with
    | single => exact ⟨_, _, rfl, .inr (by simp)⟩
    | double => exact ⟨_, _, rfl, .inr (by simp)⟩
    | constant name =>
      obtain ⟨c, cs, rfl, hc⟩ := name.head
      exact ⟨c, _, rfl, hc.imp_right (by simp [·])⟩
  cases h with
  | one atom => exact hatom atom
  | more atom =>
    obtain ⟨c, cs, rfl, hc⟩ := hatom atom
    exact ⟨c, _, rfl, hc⟩

theorem identifier_of_readIdent (h : readIdent t = some (i, r)) : t = i ++ r ∧ Identifier i := by
  unfold readIdent at h
  have hchars : ∀ c ∈ t.takeWhile isIdentChar, isIdentChar c = true :=
    fun _ hc => List.all_eq_true.mp List.all_takeWhile _ hc
  have happend : t.takeWhile isIdentChar ++ t.dropWhile isIdentChar = t :=
    List.takeWhile_append_dropWhile
  split at h
  · cases h
  · rename_i c cs hident
    rw [hident] at hchars happend
    split at h
    · cases h
    · rename_i hdigit
      obtain ⟨rfl, rfl⟩ := Prod.mk.inj (Option.some.inj h)
      exact ⟨happend.symm, by simp, hchars, by simpa using hdigit⟩

theorem segments_of_readSegments {m : Text} (h : readSegments t = (m, r)) :
    t = m ++ r ∧ Segments m := by
  fun_induction readSegments t generalizing m r with
  | case1 cs i rest hident more rest' hmore ih =>
    obtain ⟨rfl, rfl⟩ := Prod.mk.inj h
    obtain ⟨rfl, hi⟩ := identifier_of_readIdent hident
    obtain ⟨rfl, hm⟩ := ih hmore
    exact ⟨by simp, .cons hi hm⟩
  | case2 =>
    obtain ⟨rfl, rfl⟩ := Prod.mk.inj h
    exact ⟨rfl, .nil⟩
  | case3 =>
    obtain ⟨rfl, rfl⟩ := Prod.mk.inj h
    exact ⟨rfl, .nil⟩

theorem singleQuoted_of_readSingle (h : readSingle t = some (v, r)) :
    ∃ w, t = w ++ '\'' :: r ∧ SingleQuoted w v := by
  fun_induction readSingle t generalizing v with
  | case1 => cases h
  | case2 cs ih =>
    obtain ⟨⟨v', r'⟩, hread, heq⟩ := Option.map_eq_some_iff.mp h
    obtain ⟨rfl, rfl⟩ := Prod.mk.inj heq
    obtain ⟨w, rfl, hw⟩ := ih hread
    exact ⟨_, rfl, .backslash hw⟩
  | case3 cs ih =>
    obtain ⟨⟨v', r'⟩, hread, heq⟩ := Option.map_eq_some_iff.mp h
    obtain ⟨rfl, rfl⟩ := Prod.mk.inj heq
    obtain ⟨w, rfl, hw⟩ := ih hread
    exact ⟨_, rfl, .quote hw⟩
  | case4 cs =>
    obtain ⟨rfl, rfl⟩ := Prod.mk.inj (Option.some.inj h)
    exact ⟨[], rfl, .nil⟩
  | case5 c cs hslashes hescape hquote ih =>
    obtain ⟨⟨v', r'⟩, hread, heq⟩ := Option.map_eq_some_iff.mp h
    obtain ⟨rfl, rfl⟩ := Prod.mk.inj heq
    obtain ⟨w, rfl, hw⟩ := ih hread
    by_cases hc : c = '\\'
    · subst hc
      -- the backslash stands for itself, and the text does not end there
      cases w with
      | nil => exact absurd rfl (hescape _ rfl)
      | cons d w =>
        refine ⟨_, rfl, .lone ?_ ?_ hw⟩
        · rintro rfl
          exact hslashes _ rfl rfl
        · rintro rfl
          exact hescape _ rfl rfl
    · exact ⟨_, rfl, .plain hc hquote hw⟩

/-- Each escape has its form. -/
theorem DoubleQuoted.escape (c : Char) (h : DoubleQuoted w v) :
    DoubleQuoted ('\\' :: c :: w) (unescape c ++ v) := by
  by_cases hself : c = '\\' ∨ c = '"' ∨ c = '$'
  · rw [show unescape c = [c] by rcases hself with rfl | rfl | rfl <;> rfl]
    exact .escaped hself h
  · by_cases hn : c = 'n'
    · subst hn
      exact .newline h
    · by_cases ht : c = 't'
      · subst ht
        exact .tab h
      · rw [show unescape c = ['\\', c] by simp_all [unescape]]
        exact .other (by simp_all) h

theorem doubleQuoted_of_readDouble (h : readDouble t = some (v, r)) :
    ∃ w, t = w ++ '"' :: r ∧ DoubleQuoted w v := by
  fun_induction readDouble t generalizing v with
  | case1 => cases h
  | case2 => cases h
  | case3 c cs ih =>
    obtain ⟨⟨v', r'⟩, hread, heq⟩ := Option.map_eq_some_iff.mp h
    obtain ⟨rfl, rfl⟩ := Prod.mk.inj heq
    obtain ⟨w, rfl, hw⟩ := ih hread
    exact ⟨_, rfl, hw.escape c⟩
  | case4 cs =>
    obtain ⟨rfl, rfl⟩ := Prod.mk.inj (Option.some.inj h)
    exact ⟨[], rfl, .nil⟩
  | case5 => cases h
  | case6 c cs hend hslash hquote hdollar ih =>
    obtain ⟨⟨v', r'⟩, hread, heq⟩ := Option.map_eq_some_iff.mp h
    obtain ⟨rfl, rfl⟩ := Prod.mk.inj heq
    obtain ⟨w, rfl, hw⟩ := ih hread
    refine ⟨_, rfl, .plain ?_ hw⟩
    simp only [List.mem_cons, List.not_mem_nil, or_false, not_or]
    refine ⟨?_, hquote, hdollar⟩
    rintro rfl
    cases w <;> exact hslash _ _ rfl rfl

theorem constant_of_readConstant {n : Text} (h : readConstant t = some (n, r)) :
    ∃ u, t = u ++ r ∧ (Atom.classConstant n).Derived u := by
  unfold readConstant at h
  split at h
  rename_i lead body hlead
  obtain ⟨⟨first, t₁⟩, hfirst, h⟩ := Option.bind_eq_some_iff.mp h
  obtain ⟨more, t₂, hmore⟩ : ∃ more t₂, readSegments t₁ = (more, t₂) := ⟨_, _, rfl⟩
  simp only [hmore] at h
  split at h
  · rename_i t₃ hcolons
    obtain ⟨⟨word, t₄⟩, hword, h⟩ := Option.bind_eq_some_iff.mp h
    simp only at h
    split at h
    · rename_i hclass
      obtain ⟨rfl, rfl⟩ := Prod.mk.inj (Option.some.inj h)
      obtain ⟨rfl, hident⟩ := identifier_of_readIdent hfirst
      obtain ⟨rfl, hsegments⟩ := segments_of_readSegments hmore
      obtain ⟨g, ht₂, hg⟩ := exists_gap t₂
      obtain ⟨g', ht₃, hg'⟩ := exists_gap t₃
      rw [hcolons, ht₃, (identifier_of_readIdent hword).1] at ht₂
      have hname : ClassName (lead ++ first ++ more) ∧
          t = lead ++ (first ++ (more ++ t₂)) := by
        split at hlead
        · obtain ⟨rfl, rfl⟩ := Prod.mk.inj hlead
          exact ⟨.rooted hident hsegments, rfl⟩
        · obtain ⟨rfl, rfl⟩ := Prod.mk.inj hlead
          exact ⟨.relative hident hsegments, rfl⟩
      refine ⟨_, ?_, .constant hname.1 hg hg' hclass⟩
      rw [hname.2, ht₂]
      simp
    · cases h
  · cases h

theorem derived_of_readAtom {a : Atom} (h : readAtom t = some (a, r)) :
    ∃ u, t = u ++ r ∧ a.Derived u := by
  unfold readAtom at h
  split at h
  · obtain ⟨⟨v, r'⟩, hread, heq⟩ := Option.map_eq_some_iff.mp h
    obtain ⟨rfl, rfl⟩ := Prod.mk.inj heq
    obtain ⟨w, rfl, hw⟩ := singleQuoted_of_readSingle hread
    exact ⟨_, by simp, .single hw⟩
  · obtain ⟨⟨v, r'⟩, hread, heq⟩ := Option.map_eq_some_iff.mp h
    obtain ⟨rfl, rfl⟩ := Prod.mk.inj heq
    obtain ⟨w, rfl, hw⟩ := doubleQuoted_of_readDouble hread
    exact ⟨_, by simp, .double hw⟩
  · obtain ⟨⟨n, r'⟩, hread, heq⟩ := Option.map_eq_some_iff.mp h
    obtain ⟨rfl, rfl⟩ := Prod.mk.inj heq
    exact constant_of_readConstant hread

theorem operands_of_readAtoms {fuel : Nat} {as : List Atom}
    (h : readAtoms fuel t = some (as, r)) : ∃ u, t = u ++ r ∧ Operands u as := by
  induction fuel generalizing t as with
  | zero => cases h
  | succ fuel ih =>
    rw [readAtoms] at h
    obtain ⟨⟨a, rest⟩, hatom, h₁⟩ := Option.bind_eq_some_iff.mp h
    obtain ⟨u, rfl, hu⟩ := derived_of_readAtom hatom
    simp only at h₁
    split at h₁
    · rename_i cs hdot
      split at h₁
      · rename_i as' rest' hmore
        obtain ⟨rfl, rfl⟩ := Prod.mk.inj (Option.some.inj h₁)
        obtain ⟨u', hu', hoperands⟩ := ih hmore
        obtain ⟨g, hrest, hg⟩ := exists_gap rest
        obtain ⟨g', hcs, hg'⟩ := exists_gap cs
        refine ⟨_, ?_, .more hu hg hg' hoperands⟩
        rw [hrest, hdot, hcs, hu']
        simp
      · obtain ⟨rfl, rfl⟩ := Prod.mk.inj (Option.some.inj h₁)
        exact ⟨u, rfl, .one hu⟩
    · obtain ⟨rfl, rfl⟩ := Prod.mk.inj (Option.some.inj h₁)
      exact ⟨u, rfl, .one hu⟩

theorem label_of_readLabel (h : readLabel t = some (i, r)) :
    Identifier i ∧ ∃ g g', Gap g ∧ Gap g' ∧ (g' ++ r).head? ≠ some ':' ∧
      t = i ++ (g ++ (':' :: (g' ++ r))) := by
  unfold readLabel at h
  split at h
  · cases h
  · rename_i ident rest hident
    obtain ⟨rfl, hi⟩ := identifier_of_readIdent hident
    obtain ⟨g, hrest, hg⟩ := exists_gap rest
    split at h
    · cases h
    · rename_i cs hsingle hcolon
      obtain ⟨rfl, rfl⟩ := Prod.mk.inj (Option.some.inj h)
      obtain ⟨g', hcs, hg'⟩ := exists_gap cs
      refine ⟨hi, g, g', hg, hg', ?_, ?_⟩
      · rw [← hcs]
        cases cs with
        | nil => simp
        | cons d cs =>
          intro hd
          obtain rfl : d = ':' := Option.some.inj hd
          exact hsingle _ rfl
      · rw [← hcs, ← hcolon, ← hrest]
    · cases h

theorem spelled_of_parse {e : Expression} (h : parse t = .ok e) : e.Spelled t := by
  obtain ⟨g, ht, hg⟩ := exists_gap t
  unfold parse at h
  cases hlabel : readLabel (skipGap t) with
  | none =>
    simp only [hlabel] at h
    split at h
    · rename_i as rest hatoms
      split at h
      · rename_i hrest
        obtain rfl := Except.ok.inj h
        obtain ⟨u, hu, hoperands⟩ := operands_of_readAtoms hatoms
        obtain ⟨g', hend, hg'⟩ := exists_gap rest
        rw [hrest, List.append_nil] at hend
        exact ⟨g, u, rest, hg, hend ▸ hg', by rw [ht, hu], .bare hoperands⟩
      · cases h
    · cases h
  | some labelled =>
    obtain ⟨i, body⟩ := labelled
    simp only [hlabel] at h
    split at h
    · rename_i as rest hatoms
      split at h
      · rename_i hrest
        obtain rfl := Except.ok.inj h
        obtain ⟨u, rfl, hoperands⟩ := operands_of_readAtoms hatoms
        obtain ⟨g', hend, hg'⟩ := exists_gap rest
        rw [hrest, List.append_nil] at hend
        obtain ⟨hi, g₁, g₂, hg₁, hg₂, hsingle, hstart⟩ := label_of_readLabel hlabel
        refine ⟨g, _, rest, hg, hend ▸ hg', ?_, .labelled hi hg₁ hg₂ ?_ hoperands⟩
        · rw [ht, hstart]
          simp
        · obtain ⟨c, cs, rfl, -⟩ := hoperands.head
          simpa using hsingle
      · cases h
    · cases h

/-! ## §4 What is derived is read -/

/-- No identifier goes on with this text. -/
def EndsIdentifier (t : Text) : Prop := ∀ c ∈ t.head?, isIdentChar c = false

theorem isIdentChar_of_mark (h : c ∈ [' ', '\t', '\r', '\n', ':', '.', '\\', '\'', '"']) :
    isIdentChar c = false := by
  simp only [List.mem_cons, List.not_mem_nil, or_false] at h
  rcases h with rfl | rfl | rfl | rfl | rfl | rfl | rfl | rfl | rfl <;> decide +kernel

theorem isIdentChar_of_isGap (h : isGap c = true) : isIdentChar c = false := by
  simp only [isGap, Bool.or_eq_true, decide_eq_true_eq] at h
  refine isIdentChar_of_mark ?_
  rcases h with ((rfl | rfl) | rfl) | rfl <;> simp

theorem EndsIdentifier.gap (hg : Gap g) (ht : EndsIdentifier t) : EndsIdentifier (g ++ t) := by
  cases g with
  | nil => exact ht
  | cons d g =>
    intro c hc
    obtain rfl : d = c := Option.some.inj hc
    exact isIdentChar_of_isGap (hg d (by simp))

theorem EndsIdentifier.mark (h : c ∈ [' ', '\t', '\r', '\n', ':', '.', '\\', '\'', '"']) (t : Text) :
    EndsIdentifier (c :: t) := by
  intro d hd
  obtain rfl : c = d := Option.some.inj hd
  exact isIdentChar_of_mark h

theorem StartsOperand.isGap_eq_false (h : StartsOperand c) : isGap c = false := by
  rw [← Bool.not_eq_true]
  intro hgap
  rcases h with h | h
  · rw [isIdentChar_of_isGap hgap] at h
    cases h
  · simp only [List.mem_cons, List.not_mem_nil, or_false] at h
    rcases h with rfl | rfl | rfl <;> revert hgap <;> decide

/-- Blanks are skipped up to what is none. -/
theorem skipGap_append (hg : Gap g) (h : isGap c = false) (t : Text) :
    skipGap (g ++ c :: t) = c :: t := by
  rw [skipGap, List.dropWhile_append_of_pos hg, List.dropWhile_cons_of_neg (by simp [h])]

theorem skipGap_of_gap (hg : Gap g) : skipGap g = [] := by
  rw [← List.append_nil g, skipGap, List.dropWhile_append_of_pos hg]
  rfl

theorem Identifier.readIdent_append (hi : Identifier i) (hr : EndsIdentifier r) :
    readIdent (i ++ r) = some (i, r) := by
  have htake : (i ++ r).takeWhile isIdentChar = i := by
    rw [List.takeWhile_append_of_pos hi.chars]
    cases r with
    | nil => simp
    | cons c r => simp [hr c rfl]
  have hdrop : (i ++ r).dropWhile isIdentChar = r := by
    rw [List.dropWhile_append_of_pos hi.chars]
    cases r with
    | nil => rfl
    | cons c r => simp [hr c rfl]
  obtain ⟨c, cs, hc⟩ := List.exists_cons_of_ne_nil hi.nonempty
  have hdigit : c.isDigit = false := hi.start c (by rw [hc]; rfl)
  rw [readIdent, htake, hdrop, hc]
  simp [hdigit]

theorem SingleQuoted.readSingle_append (h : SingleQuoted w v) (r : Text) :
    readSingle (w ++ '\'' :: r) = some (v, r) := by
  induction h with
  | nil => rfl
  | backslash rest ih => simp [readSingle, ih]
  | quote rest ih => simp [readSingle, ih]
  | @lone d w v slash quote rest ih =>
    rw [List.cons_append, List.cons_append] at *
    rw [readSingle, ih]
    · rfl
    all_goals simp [slash, quote]
  | @plain c w v slash quote rest ih =>
    rw [List.cons_append, readSingle, ih]
    · rfl
    all_goals simp [slash, quote]

theorem DoubleQuoted.readDouble_append (h : DoubleQuoted w v) (r : Text) :
    readDouble (w ++ '"' :: r) = some (v, r) := by
  induction h with
  | nil => rfl
  | escaped mark rest ih =>
    rcases mark with rfl | rfl | rfl <;> simp [readDouble, ih, unescape]
  | newline rest ih => simp [readDouble, ih, unescape]
  | tab rest ih => simp [readDouble, ih, unescape]
  | other mark rest ih =>
    simp only [List.mem_cons, List.not_mem_nil, or_false, not_or] at mark
    simp [readDouble, ih, unescape, mark]
  | @plain c w v mark rest ih =>
    simp only [List.mem_cons, List.not_mem_nil, or_false, not_or] at mark
    rw [List.cons_append, readDouble, ih]
    · rfl
    all_goals simp [mark]

/-- Neither an identifier nor another segment goes on with this text. -/
def EndsName (t : Text) : Prop := EndsIdentifier t ∧ t.head? ≠ some '\\'

theorem Segments.endsIdentifier {m : Text} (hm : Segments m) (hr : EndsName r) :
    EndsIdentifier (m ++ r) := by
  cases hm with
  | nil => exact hr.1
  | cons => exact .mark (by simp) _

theorem Segments.readSegments_append {m : Text} (hm : Segments m) (hr : EndsName r) :
    readSegments (m ++ r) = (m, r) := by
  induction hm with
  | nil =>
    rw [List.nil_append, readSegments.eq_def]
    split
    · exact absurd rfl hr.2
    · rfl
  | @cons i m ident rest ih =>
    have hread := ident.readIdent_append (rest.endsIdentifier hr)
    rw [List.cons_append, List.append_assoc, readSegments.eq_def]
    simp only
    split
    · rename_i i' r' hread'
      obtain ⟨rfl, rfl⟩ := Prod.mk.inj (Option.some.inj (hread'.symm.trans hread))
      rw [ih]
      simp
    · rename_i hnone
      rw [hread] at hnone
      cases hnone

/-- The word `class`, in whatever case, is an identifier. -/
theorem identifier_of_keyword (h : Text.sameLetters w "class" = true) : Identifier w := by
  have hlower : Text.lower w = ['c', 'l', 'a', 's', 's'] := eq_of_beq h
  have hletters : ∀ c ∈ w, c ∈ ['c', 'l', 'a', 's', 'C', 'L', 'A', 'S'] := by
    intro c hc
    have hd : c.toLower ∈ ['c', 'l', 'a', 's', 's'] := hlower ▸ List.mem_map_of_mem hc
    simp only [List.mem_cons, List.not_mem_nil, or_false] at hd
    rcases toNat_of_toLower (c := c) rfl with hsame | hcapital
    · rw [hsame]
      rcases hd with hd | hd | hd | hd | hd <;> rw [hd] <;> decide
    · rw [← Char.ofNat_toNat c, ← Nat.add_sub_cancel (n := c.toNat) (m := 32), hcapital]
      rcases hd with hd | hd | hd | hd | hd <;> rw [hd] <;> decide
  have hident : ∀ c ∈ ['c', 'l', 'a', 's', 'C', 'L', 'A', 'S'],
      isIdentChar c = true ∧ c.isDigit = false := by
    intro c hc
    simp only [List.mem_cons, List.not_mem_nil, or_false] at hc
    rcases hc with rfl | rfl | rfl | rfl | rfl | rfl | rfl | rfl <;> decide +kernel
  refine ⟨?_, fun c hc => (hident c (hletters c hc)).1, fun c hc => ?_⟩
  · rintro rfl
    cases hlower
  · exact (hident c (hletters c (List.mem_of_mem_head? hc))).2

/-- A class name is told apart into what stands in front, its first identifier and the segments. -/
theorem ClassName.exists_parts {n : Text} (hn : ClassName n) (t : Text) :
    ∃ lead i m : Text, Identifier i ∧ Segments m ∧ n = lead ++ i ++ m ∧
      (match n ++ t with
        | '\\' :: cs => (['\\'], cs)
        | cs => ([], cs) : Text × Text) = (lead, i ++ (m ++ t)) := by
  cases hn with
  | @relative i m ident rest =>
    refine ⟨[], i, m, ident, rest, rfl, ?_⟩
    split
    · rename_i cs hslash
      -- an identifier does not begin with a backslash
      obtain ⟨d, ds, rfl⟩ := List.exists_cons_of_ne_nil ident.nonempty
      obtain rfl : d = '\\' := (List.cons.inj hslash).1
      have := ident.chars '\\' (by simp)
      rw [isIdentChar_of_mark (by simp)] at this
      cases this
    · rw [List.append_assoc]
  | @rooted i m ident rest => exact ⟨['\\'], i, m, ident, rest, rfl, by simp⟩

theorem ClassName.readConstant_append {n : Text} (hn : ClassName n) (hg : Gap g) (hg' : Gap g')
    (hw : Text.sameLetters w "class" = true) (hr : EndsIdentifier r) :
    readConstant (n ++ (g ++ (':' :: ':' :: (g' ++ (w ++ r))))) = some (n, r) := by
  have hkeyword := identifier_of_keyword hw
  obtain ⟨c, cs, hc⟩ := List.exists_cons_of_ne_nil hkeyword.nonempty
  have hstart : isGap c = false :=
    StartsOperand.isGap_eq_false (.inl (hkeyword.chars c (by rw [hc]; simp)))
  have hcolons : skipGap (g ++ (':' :: ':' :: (g' ++ (w ++ r)))) = ':' :: ':' :: (g' ++ (w ++ r)) :=
    skipGap_append hg (by decide) _
  have hword : skipGap (g' ++ (w ++ r)) = w ++ r := by
    rw [hc]
    exact skipGap_append hg' hstart _
  have hends : EndsName (g ++ (':' :: ':' :: (g' ++ (w ++ r)))) := by
    refine ⟨.gap hg (.mark (by simp) _), ?_⟩
    cases g with
    | nil => simp
    | cons d g =>
      intro hd
      obtain rfl : d = '\\' := Option.some.inj hd
      exact absurd (hg '\\' (by simp)) (by decide)
  obtain ⟨lead, i, m, hi, hm, rfl, hlead⟩ := hn.exists_parts (g ++ (':' :: ':' :: (g' ++ (w ++ r))))
  unfold readConstant
  split
  rename_i lead' body hsplit
  obtain ⟨rfl, rfl⟩ := Prod.mk.inj (hsplit.symm.trans hlead)
  simp only [hi.readIdent_append (hm.endsIdentifier hends), hm.readSegments_append hends, hcolons,
    hword, hkeyword.readIdent_append hr, hw, Option.bind_eq_bind, Option.bind_some, if_true]

theorem Atom.Derived.readAtom_append {a : Atom} (h : a.Derived t) (hr : EndsIdentifier r) :
    readAtom (t ++ r) = some (a, r) := by
  cases h with
  | single body => simp [readAtom, body.readSingle_append]
  | double body => simp [readAtom, body.readDouble_append]
  | @constant n g g' word name gap gap' keyword =>
    have hread := name.readConstant_append gap gap' keyword hr
    have htext : n ++ (g ++ (':' :: ':' :: (g' ++ word))) ++ r =
        n ++ (g ++ (':' :: ':' :: (g' ++ (word ++ r)))) := by simp
    have hquote : ∀ q cs, q ∈ ['\'', '"'] →
        n ++ (g ++ (':' :: ':' :: (g' ++ (word ++ r)))) ≠ q :: cs := by
      rintro q cs hq heq
      obtain ⟨c, ds, rfl, hc⟩ := name.head
      obtain rfl : c = q := (List.cons.inj heq).1
      rcases hc with hc | rfl
      · rw [isIdentChar_of_mark (by simp at hq ⊢; simp [hq])] at hc
        cases hc
      · simp at hq
    rw [htext]
    unfold readAtom
    split
    · rename_i cs heq
      exact absurd heq (hquote _ _ (by simp))
    · rename_i cs heq
      exact absurd heq (hquote _ _ (by simp))
    · rw [hread]
      rfl

/-- The rest of a text after operands: no identifier goes on with it, and no dot comes next. -/
def EndsOperands (r : Text) : Prop := EndsIdentifier r ∧ (skipGap r).head? ≠ some '.'

theorem Operands.readAtoms_append {as : List Atom} (h : Operands t as) (hr : EndsOperands r)
    {k : Nat} (hk : t.length < k) : readAtoms k (t ++ r) = some (as, r) := by
  induction h generalizing k with
  | @one t a atom =>
    obtain ⟨k, rfl⟩ := Nat.exists_eq_add_of_lt (Nat.zero_lt_of_lt hk)
    rw [Nat.zero_add, readAtoms, atom.readAtom_append hr.1]
    simp only [Option.bind_eq_bind, Option.bind_some]
    split
    · rename_i cs hdot
      exact absurd (congrArg List.head? hdot) hr.2
    · rfl
  | @more t g g' u a as atom gap gap' rest ih =>
    obtain ⟨k, rfl⟩ := Nat.exists_eq_add_of_lt (Nat.zero_lt_of_lt hk)
    obtain ⟨c, cs, hc, hstart⟩ := rest.head
    have htext : t ++ (g ++ ('.' :: (g' ++ u))) ++ r = t ++ (g ++ ('.' :: (g' ++ (u ++ r)))) := by
      simp
    have hdot : skipGap (g ++ ('.' :: (g' ++ (u ++ r)))) = '.' :: (g' ++ (u ++ r)) :=
      skipGap_append gap (by decide) _
    have hnext : skipGap (g' ++ (u ++ r)) = u ++ r := by
      rw [hc]
      exact skipGap_append gap' hstart.isGap_eq_false _
    have hrest : readAtoms k (u ++ r) = some (as, r) := by
      refine ih ?_
      simp only [List.length_append, List.length_cons] at hk
      omega
    rw [Nat.zero_add, htext, readAtoms, atom.readAtom_append (.gap gap (.mark (by simp) _))]
    simp only [Option.bind_eq_bind, Option.bind_some, hdot, hnext, hrest]

theorem readLabel_append (hi : Identifier i) (hg : Gap g) (hg' : Gap g')
    (hsingle : (g' ++ t).head? ≠ some ':') (hc : ∃ c cs, t = c :: cs ∧ StartsOperand c) (r : Text) :
    readLabel (i ++ (g ++ (':' :: (g' ++ (t ++ r))))) = some (i, t ++ r) := by
  obtain ⟨c, cs, rfl, hstart⟩ := hc
  have hcolon : skipGap (g ++ (':' :: (g' ++ (c :: cs ++ r)))) = ':' :: (g' ++ (c :: cs ++ r)) :=
    skipGap_append hg (by decide) _
  have hnext : skipGap (g' ++ (c :: cs ++ r)) = c :: cs ++ r :=
    skipGap_append hg' hstart.isGap_eq_false _
  have hsingle' : ∀ ds, g' ++ (c :: cs ++ r) ≠ ':' :: ds := by
    intro ds heq
    have := congrArg List.head? heq
    simp only [List.head?_append, List.cons_append, List.head?_cons] at this hsingle
    exact hsingle this
  rw [readLabel, hi.readIdent_append (.gap hg (.mark (by simp) _))]
  simp only [hcolon]
  rw [hnext]

/-- An operand does not begin like a label: what follows its first identifier is a second one or two
colons. -/
theorem Atom.Derived.readLabel_append {a : Atom} (h : a.Derived t) (r : Text) :
    readLabel (t ++ r) = none := by
  have hmark : ∀ {c : Char} (t : Text), c ∈ ['\'', '"', '\\'] → readLabel (c :: t) = none := by
    intro c t hc
    have hident : isIdentChar c = false := isIdentChar_of_mark (by simp at hc ⊢; tauto)
    simp [readLabel, readIdent, hident]
  cases h with
  | single => exact hmark _ (by simp)
  | double => exact hmark _ (by simp)
  | @constant n g g' word name gap gap' keyword =>
    cases name with
    | rooted => exact hmark _ (by simp)
    | @relative i m ident rest =>
      rw [show i ++ m ++ (g ++ (':' :: ':' :: (g' ++ word))) ++ r =
        i ++ (m ++ (g ++ (':' :: ':' :: (g' ++ (word ++ r))))) by simp]
      cases rest with
      | nil =>
        have hcolons : skipGap (g ++ (':' :: ':' :: (g' ++ (word ++ r)))) =
            ':' :: ':' :: (g' ++ (word ++ r)) := skipGap_append gap (by decide) _
        rw [List.nil_append, readLabel, ident.readIdent_append (.gap gap (.mark (by simp) _))]
        simp only [hcolons]
      | cons =>
        rw [List.cons_append, readLabel, ident.readIdent_append (.mark (by simp) _)]
        rfl

theorem Operands.readLabel_append {as : List Atom} (h : Operands t as) (r : Text) :
    readLabel (t ++ r) = none := by
  cases h with
  | one atom => exact atom.readLabel_append r
  | more atom =>
    rw [List.append_assoc]
    exact atom.readLabel_append _

theorem parse_of_spelled {e : Expression} (h : e.Spelled t) : parse t = .ok e := by
  obtain ⟨g, u, g', hg, hg', rfl, hu⟩ := h
  have hends : EndsOperands g' := by
    refine ⟨by simpa using EndsIdentifier.gap (t := []) hg' (by simp [EndsIdentifier]), ?_⟩
    rw [skipGap_of_gap hg']
    simp
  unfold parse
  cases hu with
  | @bare u as operands =>
    obtain ⟨c, cs, hc, hstart⟩ := operands.head
    have hskip : skipGap (g ++ (u ++ g')) = u ++ g' := by
      rw [hc]
      exact skipGap_append hg hstart.isGap_eq_false _
    have hread := operands.readAtoms_append hends (k := (u ++ g').length + 1)
      (by rw [List.length_append]; omega)
    simp only [hskip, operands.readLabel_append g', hread, skipGap_of_gap hg', if_true]
  | @labelled i g₁ g₂ u as ident gap gap' single operands =>
    obtain ⟨c, cs, hc⟩ := List.exists_cons_of_ne_nil ident.nonempty
    have hstart : isGap c = false :=
      StartsOperand.isGap_eq_false (.inl (ident.chars c (by rw [hc]; simp)))
    have hskip : skipGap (g ++ (i ++ (g₁ ++ (':' :: (g₂ ++ u))) ++ g')) =
        i ++ (g₁ ++ (':' :: (g₂ ++ (u ++ g')))) := by
      rw [hc]
      simpa using skipGap_append hg hstart (cs ++ (g₁ ++ (':' :: (g₂ ++ (u ++ g')))))
    have hread := operands.readAtoms_append hends (k := (u ++ g').length + 1)
      (by rw [List.length_append]; omega)
    simp only [hskip, readLabel_append ident gap gap' single operands.head, hread,
      skipGap_of_gap hg', if_true]

/-- An argument is read exactly if the grammar has it, as an expression with the meaning it has there,
and there is only one. -/
theorem parse_exact :
    (∀ (t : Text) (e : Expression), parse t = .ok e ↔ e.Spelled t) ∧
      ∀ (t : Text) (e e' : Expression), e.Spelled t → e'.Spelled t → e = e' :=
  ⟨fun _ _ => ⟨spelled_of_parse, parse_of_spelled⟩, fun _ _ _ h h' =>
    Except.ok.inj ((parse_of_spelled h).symm.trans (parse_of_spelled h'))⟩

/-- A label, a class constant with an escape after it, and nothing else that this could be. -/
theorem parse_exact_labelled :
    Spelled " method: \\App\\Cart::CLASS . \"\\$\" "
        ⟨some "method".toList, [.classConstant "\\App\\Cart", .literal "$"]⟩ ∧
      ∀ e, Spelled " method: \\App\\Cart::CLASS . \"\\$\" " e →
        e = ⟨some "method".toList, [.classConstant "\\App\\Cart", .literal "$"]⟩ :=
  have hident : Identifier "method" ∧ Identifier "App" ∧ Identifier "Cart" := by decide +kernel
  have hgap : Gap [] ∧ Gap [' '] := by simp [Gap, isGap]
  have hname : ClassName "\\App\\Cart" :=
    .rooted hident.2.1 (.cons hident.2.2 .nil)
  have hdollar : (Atom.literal "$").Derived "\"\\$\"" := .double (.escaped (.inr (.inr rfl)) .nil)
  have h : Spelled " method: \\App\\Cart::CLASS . \"\\$\" "
      ⟨some "method".toList, [.classConstant "\\App\\Cart", .literal "$"]⟩ :=
    ⟨[' '], _, [' '], hgap.2, hgap.2, rfl,
      .labelled hident.1 hgap.1 hgap.2 (by decide)
        (.more (@Atom.Derived.constant _ [] [] "CLASS" hname hgap.1 hgap.1 (by decide))
          hgap.2 hgap.2 (.one hdollar))⟩
  ⟨h, fun _ h' => parse_exact.2 _ _ _ h' h⟩

end Crosslink.Source
