import Crosslink.Source.Attribute
import Crosslink.Proofs.Grammar
import Crosslink.Proofs.Collecting
import Crosslink.Proofs.Margins
import Crosslink.Proofs.Naming
import Crosslink.Proofs.Renaming

/-!
# Tallies

What an argument means has the marks of its text, neither more nor fewer: an escape stands for one
character of the same kind, and a name that is put for a class constant has none. Only the quotes
around a text and the colons of a label or a class constant are lost. So what an attribute says can be
told to be too much for the text it stands in, whatever way that text is cut into arguments.

* §1 `IsMark`, the kinds of characters that are counted.
* §2 `countP_of_spelled`, the marks of an argument and of its value.
* §3 `Imports.Named`, the names that a class constant can stand for.
* §4 `countP_of_testedBy`, the marks of what an attribute says.
-/

namespace Crosslink.Source

open Expression

variable {p : Char → Bool} {t u v w n g : Text} {f : Text → Text}

/-! ## §1 Marks -/

/-- Characters that stand in no name, are no blank, no dot and no backslash, and both quotes or none. -/
structure IsMark (p : Char → Bool) : Prop where
  name : ∀ c, isNameChar c = true → p c = false
  gap : ∀ c, isGap c = true → p c = false
  dot : p '.' = false
  slash : p '\\' = false
  quotes : p '"' = p '\''

/-- A character that is a mark by itself. -/
theorem isMark_of_eq {d : Char} (h : d ∈ [',', ')', ':']) : IsMark (· == d) := by
  have hname : isNameChar d = false ∧ isGap d = false ∧ ('.' == d) = false ∧ ('\\' == d) = false ∧
      ('"' == d) = ('\'' == d) := by
    simp only [List.mem_cons, List.not_mem_nil, or_false] at h
    rcases h with rfl | rfl | rfl <;> decide
  refine ⟨fun c hc => ?_, fun c hc => ?_, hname.2.2.1, hname.2.2.2.1, hname.2.2.2.2⟩
  · refine beq_eq_false_iff_ne.mpr ?_
    rintro rfl
    rw [hname.1] at hc
    cases hc
  · refine beq_eq_false_iff_ne.mpr ?_
    rintro rfl
    rw [hname.2.1] at hc
    cases hc

/-- A quote of either kind. -/
def isQuote (c : Char) : Bool := c == '\'' || c == '"'

theorem isMark_isQuote : IsMark isQuote := by
  refine ⟨fun c hc => ?_, fun c hc => ?_, rfl, rfl, rfl⟩
  all_goals
    rw [← Bool.not_eq_true]
    intro hquote
    simp only [isQuote, Bool.or_eq_true, beq_iff_eq] at hquote
    rcases hquote with rfl | rfl <;> revert hc <;> decide

namespace IsMark

theorem ident (hp : IsMark p) {c : Char} (h : isIdentChar c = true) : p c = false :=
  hp.name c (isNameChar_of_isIdentChar h)

theorem countP_of_forall (h : ∀ c ∈ t, p c = false) : t.countP p = 0 :=
  List.countP_eq_zero.mpr fun c hc => by simp [h c hc]

theorem countP_gap (hp : IsMark p) (hg : Gap g) : g.countP p = 0 :=
  countP_of_forall fun c hc => hp.gap c (hg c hc)

theorem countP_identifier (hp : IsMark p) (h : Identifier t) : t.countP p = 0 :=
  countP_of_forall fun c hc => hp.ident (h.chars c hc)

end IsMark

/-! ## §2 Arguments -/

/-- The characters that names are written with. -/
def IsNamed (n : Text) : Prop := ∀ c ∈ n, isNameChar c = true ∨ c = '\\'

theorem IsMark.countP_named (hp : IsMark p) (h : IsNamed n) : n.countP p = 0 :=
  countP_of_forall fun c hc => by
    rcases h c hc with h | rfl
    · exact hp.name c h
    · exact hp.slash

theorem isNamed_nil : IsNamed [] := by simp [IsNamed]

theorem IsNamed.append (h : IsNamed n) (h' : IsNamed t) : IsNamed (n ++ t) :=
  fun c hc => (List.mem_append.mp hc).elim (h c) (h' c)

theorem IsNamed.of_subset (h : IsNamed n) (hsub : t ⊆ n) : IsNamed t := fun c hc => h c (hsub hc)

theorem Identifier.isNamed (h : Identifier n) : IsNamed n :=
  fun c hc => .inl (isNameChar_of_isIdentChar (h.chars c hc))

theorem Segments.isNamed (h : Segments n) : IsNamed n := by
  induction h with
  | nil => exact isNamed_nil
  | @cons i m ident rest ih =>
    exact IsNamed.append (n := ['\\']) (by simp [IsNamed]) (ident.isNamed.append ih)

theorem ClassName.isNamed (h : ClassName n) : IsNamed n := by
  cases h with
  | relative ident rest => exact ident.isNamed.append rest.isNamed
  | rooted ident rest =>
    exact IsNamed.append (n := ['\\']) (by simp [IsNamed]) (ident.isNamed.append rest.isNamed)

/-- The value of an operand, given what a class name stands for. -/
def Atom.value (f : Text → Text) : Atom → Text
  | .literal t => t
  | .classConstant n => f n

theorem Expression.resolve_eq (f : Text → Text) (e : Expression) :
    e.resolve f = e.atoms.flatMap (Atom.value f) := rfl

/-- The marks that only show what an operand is. -/
def Atom.form : Atom → Text
  | .literal _ => ['\'', '\'']
  | .classConstant _ => [':', ':']

/-- The marks that only show what an argument is made of. -/
def Expression.form (e : Expression) : Text :=
  (if e.label.isSome then [':'] else []) ++ e.atoms.flatMap Atom.form

theorem SingleQuoted.countP_eq (hp : IsMark p) (h : SingleQuoted w v) : w.countP p = v.countP p := by
  induction h with
  | nil => rfl
  | backslash rest ih | quote rest ih | lone _ _ rest ih =>
    simp [List.countP_cons, hp.slash] at ih ⊢
    omega
  | plain _ _ rest ih => simp [List.countP_cons, ih]

theorem DoubleQuoted.countP_eq (hp : IsMark p) (h : DoubleQuoted w v) : w.countP p = v.countP p := by
  have hn : p 'n' = false ∧ p 't' = false := ⟨hp.name _ (by decide), hp.name _ (by decide)⟩
  have hgap : p '\n' = false ∧ p '\t' = false := ⟨hp.gap _ rfl, hp.gap _ rfl⟩
  induction h with
  | nil => rfl
  | newline rest ih | tab rest ih => simp [hp.slash, hn, hgap, ih]
  | escaped _ rest ih | other _ rest ih | plain _ rest ih => simp [List.countP_cons, hp.slash, ih]

section

variable (hp : IsMark p) (hf : ∀ n, ClassName n → IsNamed (f n))

include hp hf

theorem Atom.countP_of_derived {a : Atom} (h : a.Derived t) :
    t.countP p = a.form.countP p + (a.value f).countP p := by
  cases h with
  | single body =>
    simp only [List.countP_cons, List.countP_append, List.countP_nil, body.countP_eq hp, Atom.form,
      Atom.value]
    omega
  | double body =>
    simp only [List.countP_cons, List.countP_append, List.countP_nil, body.countP_eq hp, Atom.form,
      Atom.value, hp.quotes]
    omega
  | constant name gap gap' keyword =>
    simp only [List.countP_cons, List.countP_append, hp.countP_named name.isNamed, hp.countP_gap gap,
      hp.countP_gap gap', hp.countP_identifier (identifier_of_keyword keyword), Atom.form, Atom.value,
      hp.countP_named (hf _ name), List.countP_nil]
    omega

theorem Operands.countP_eq {as : List Atom} (h : Operands t as) :
    t.countP p = (as.flatMap Atom.form).countP p + (as.flatMap (Atom.value f)).countP p := by
  induction h with
  | one atom => simp [Atom.countP_of_derived hp hf atom]
  | more atom gap gap' rest ih =>
    simp only [List.countP_append, List.countP_cons, hp.countP_gap gap, hp.countP_gap gap', hp.dot,
      Atom.countP_of_derived hp hf atom, ih, List.flatMap_cons]
    simp
    omega

/-- An argument has the marks of its value, and those that only show its form. -/
theorem countP_of_spelled {e : Expression} (h : e.Spelled t) :
    t.countP p = e.form.countP p + (e.resolve f).countP p := by
  obtain ⟨g, u, g', hg, hg', rfl, hu⟩ := h
  rw [List.countP_append, List.countP_append, hp.countP_gap hg, hp.countP_gap hg', resolve_eq,
    Expression.form]
  cases hu with
  | bare operands => simp [operands.countP_eq hp hf]
  | labelled ident gap gap' _ operands =>
    simp only [List.countP_append, List.countP_cons, hp.countP_identifier ident, hp.countP_gap gap,
      hp.countP_gap gap', operands.countP_eq hp hf, Option.isSome_some, if_true, List.countP_nil]
    omega

end

/-! ## §3 Imports -/

open TokenSequence Imports

/-- All names of the imports are written with the characters of names. -/
structure Imports.Named (imports : Imports) : Prop where
  ns : IsNamed imports.ns
  uses : ∀ u ∈ imports.uses, IsNamed u.2

variable {source : Text} {l : TokenSequence}

theorem isNamed_of_token (hl : tokenize source = .ok l) {i : Nat} {t : Token}
    (ht : l.tokens[i]? = some t) (hk : t.kind = .name) : IsNamed t.text := by
  obtain ⟨c, cs, hmeasure, htext⟩ := exists_measure hl ht
  rw [hk] at hmeasure
  obtain ⟨hm, hc⟩ := measure_of_name hmeasure
  rw [htext, hm]
  intro d hd
  rcases List.mem_cons.mp hd with rfl | hd
  · exact hc.imp (fun hc => by simp [isNameChar, hc]) And.left
  · exact mem_of_qualifiedLength hd

theorem IsNamed.relativeName (h : IsNamed n) : IsNamed (relativeName n) :=
  h.of_subset (List.dropWhile_suffix _).subset

theorem isNamed_backslash : IsNamed "\\" := by simp [IsNamed]

/-- What a statement lists are names. -/
theorem isNamed_listed (hl : tokenize source = .ok l) {lead : Text} (hlead : IsNamed lead)
    (stop i : Nat) : ∀ u ∈ listed l lead stop i, IsNamed u.2 := by
  have hfull : ∀ {i : Nat} {t : Token}, l.tokens[i]? = some t → t.kind = .name →
      IsNamed (lead ++ Source.relativeName t.text) :=
    fun ht hk => hlead.append (isNamed_of_token hl ht hk).relativeName
  fun_induction listed l lead stop i with
  | case1 i hi ht => simp
  | case2 i hi t ht hk full short word hword has given ih =>
    exact List.forall_mem_cons.mpr ⟨hfull ht hk, ih⟩
  | case3 i hi t ht hk full short word hword has ih =>
    exact List.forall_mem_cons.mpr ⟨hfull ht hk, ih⟩
  | case4 i hi t ht hk full short hword ih => exact List.forall_mem_cons.mpr ⟨hfull ht hk, ih⟩
  | case5 i hi t ht hk ih => exact ih
  | case6 i hi => simp

theorem isNamed_groupName (hl : tokenize source = .ok l) {i : Nat} (h : groupName l i = some n) :
    IsNamed n := by
  unfold groupName at h
  split at h
  · rename_i name sep brace hname hsep hbrace
    split at h
    · rename_i hkinds
      obtain rfl := Option.some.inj h
      simp only [Bool.and_eq_true, decide_eq_true_eq] at hkinds
      exact (isNamed_of_token hl hname hkinds.1.1).relativeName.append isNamed_backslash
    · cases h
  · cases h

theorem isNamed_statement (hl : tokenize source = .ok l) (i : Nat) :
    ∀ u ∈ (statement l i).1, IsNamed u.2 := by
  unfold statement
  dsimp only
  split
  · simp
  · split
    · simp
    · split
      · rename_i lead hlead
        exact isNamed_listed hl (isNamed_groupName hl hlead) _ _
      · exact isNamed_listed hl isNamed_nil _ _

theorem named_declare {s : Collected} (hs : s.imports.Named) {name : Option Text}
    (hname : ∀ n ∈ name, IsNamed n) (braced : Bool) : (s.declare name braced).imports.Named := by
  have hns : ∀ b : Bool, (if b = true then { s with braces := true :: s.braces } else s).imports.Named := by
    intro b
    cases b <;> exact hs
  unfold Collected.declare
  cases name with
  | none => exact hns braced
  | some n =>
    dsimp only
    by_cases hnamed : s.named = true
    · rw [if_pos hnamed]
      exact hns braced
    · rw [if_neg hnamed]
      have hfirst := (hname n rfl).relativeName
      cases braced <;> exact ⟨hfirst, hs.uses⟩

/-- One step of the walk over a file takes in names. -/
theorem named_step (hl : tokenize source = .ok l) {s : Collected} {i : Nat} (t : Token)
    (hs : s.imports.Named) : (s.step l i t).1.imports.Named := by
  unfold Collected.step
  split
  · exact hs
  · split
    · exact hs
    · split
      · refine named_declare hs (fun n hn => ?_) _
        obtain ⟨u, hu, rfl⟩ := Option.map_eq_some_iff.mp hn
        obtain ⟨hu, hkind⟩ := Option.filter_eq_some_iff.mp hu
        exact isNamed_of_token hl hu (by simpa using hkind)
      · split
        · exact ⟨hs.ns, List.forall_mem_append.mpr ⟨hs.uses, isNamed_statement hl (i + 1)⟩⟩
        · exact hs

theorem named_of_comes (hl : tokenize source = .ok l) {s : Collected} {i : Nat} (h : Comes l i s) :
    s.imports.Named := by
  induction h with
  | start => exact ⟨isNamed_nil, by simp⟩
  | step before token ih => exact named_step hl _ ih

theorem named_ofTokens (hl : tokenize source = .ok l) : (ofTokens l).Named := by
  obtain ⟨i, s, hcomes, -, himports⟩ := exists_comes l
  exact himports ▸ named_of_comes hl hcomes

/-- Whatever a class name stands for is a name. -/
theorem Imports.Named.resolve {imports : Imports} (h : imports.Named) (hn : IsNamed n) :
    IsNamed (imports.resolve n) := by
  have hseparated : ∀ {u v : Text}, IsNamed u → IsNamed v → IsNamed (u ++ "\\" ++ v) :=
    fun hu hv => (hu.append isNamed_backslash).append hv
  unfold Imports.resolve
  split
  · exact hn.of_subset (List.subset_cons_self _ _)
  · split
    rename_i first rest hsplit
    split
    · rename_i given full hfind
      have hfull := h.uses _ (List.mem_of_find?_eq_some hfind)
      split
      · rename_i tail
        refine hseparated hfull (hn.of_subset ?_)
        split at hsplit
        · rename_i first' tail' hfirst
          obtain ⟨rfl, htail⟩ := Prod.mk.inj hsplit
          obtain rfl := Option.some.inj htail
          rw [Text.eq_append_of_splitFirst hfirst, ← List.append_assoc]
          exact List.subset_append_right _ _
        · cases (Prod.mk.inj hsplit).2
      · exact hfull
    · split
      · exact hn
      · exact hseparated h.ns hn

/-! ## §4 What attributes say -/

variable {imports : Imports} {a : Attribute} {r : BackReference}

/-- The value of an argument that is made of quoted texts is the same under all imports. -/
theorem resolve_of_literal? {e : Expression} (h : e.literal? = some v) : e.resolve f = v := by
  obtain ⟨label, atoms⟩ := e
  induction atoms generalizing v with
  | nil => exact Option.some.inj h
  | cons atom atoms ih =>
    cases atom with
    | classConstant n => cases h
    | literal t =>
      obtain ⟨w, hw, rfl⟩ := Option.map_eq_some_iff.mp h
      exact congrArg (t ++ ·) (ih hw)

/-- An argument has the marks of its value and perhaps more. -/
theorem countP_le_of_parse (hp : IsMark p) (hi : imports.Named) {e : Expression}
    (h : parse t = .ok e) : (e.resolve imports.resolve).countP p ≤ t.countP p := by
  rw [countP_of_spelled hp (fun n hn => hi.resolve hn.isNamed) (spelled_of_parse h)]
  exact Nat.le_add_left _ _

theorem countP_relativeName (hp : IsMark p) (t : Text) : (relativeName t).countP p = t.countP p := by
  have hslashes : (t.takeWhile (· = '\\')).countP p = 0 := IsMark.countP_of_forall fun c hc => by
    have := List.all_eq_true.mp List.all_takeWhile c hc
    rw [of_decide_eq_true this, hp.slash]
  have hsplit : t.takeWhile (· = '\\') ++ relativeName t = t := List.takeWhile_append_dropWhile
  conv => rhs; rw [← hsplit, List.countP_append, hslashes, Nat.zero_add]

/-- True for an argument that names a method where it stands. -/
def Expression.namesMethod (position : Nat) (e : Expression) : Bool :=
  match e.label with
  | some label => Text.sameLetters label "method"
  | none => position = 1

/-- The first argument names the method, or it names the class unless that is known. -/
theorem gather_cases {className method : Option Text} {position : Nat} {b : Argument}
    {as : List Argument} {x : Option Text × Option Text}
    (h : Attribute.gather imports className method position (b :: as) = some x) :
    ∃ e, parse b.text = .ok e ∧
      ((e.namesMethod position = true ∧ ∃ m, e.literal? = some m ∧
          Attribute.gather imports className (some m) (position + 1) as = some x) ∨
        (e.namesMethod position = false ∧
          Attribute.gather imports (className <|> some (relativeName (e.resolve imports.resolve)))
            method (position + 1) as = some x)) := by
  unfold Attribute.gather at h
  cases he : parse b.text with
  | error err => simp [he] at h
  | ok e =>
    refine ⟨e, rfl, ?_⟩
    simp only [he] at h
    change (if e.namesMethod position = true then _ else _) = _ at h
    split at h
    · rename_i hmethod
      split at h
      · rename_i m hm
        exact .inl ⟨hmethod, m, hm, h⟩
      · cases h
    · rename_i hmethod
      exact .inr ⟨Bool.eq_false_iff.mpr hmethod, h⟩

/-- The class and the method that arguments name have no more marks than the arguments. -/
theorem countP_of_gather (hp : IsMark p) (hi : imports.Named) {className method : Option Text}
    {position : Nat} {as : List Argument} {x : Option Text × Option Text}
    (h : Attribute.gather imports className method position as = some x) :
    (x.1.getD []).countP p + (x.2.getD []).countP p ≤
      (className.getD []).countP p + (method.getD []).countP p +
        (as.flatMap Argument.text).countP p := by
  induction as generalizing className method position with
  | nil =>
    obtain rfl := Option.some.inj h
    exact Nat.le_add_right _ _
  | cons a as ih =>
    obtain ⟨e, he, ⟨-, m, hm, hrest⟩ | ⟨-, hrest⟩⟩ := gather_cases h
    all_goals
      have hvalue := countP_le_of_parse hp hi he
      have hmarks := ih hrest
      rw [List.flatMap_cons, List.countP_append]
    · rw [resolve_of_literal? hm] at hvalue
      rw [Option.getD_some] at hmarks
      omega
    · have hshort := countP_relativeName hp (e.resolve imports.resolve)
      have hclass : ∀ v : Text, ((className <|> some v).getD []).countP p ≤
          (className.getD []).countP p + v.countP p := by
        intro v
        cases className <;> simp
      have := hclass (relativeName (e.resolve imports.resolve))
      omega

/-- A class that is known is kept. -/
theorem className_of_gather {c : Text} {method : Option Text} {position : Nat} {as : List Argument}
    {x : Option Text × Option Text}
    (h : Attribute.gather imports (some c) method position as = some x) : x.1 = some c := by
  induction as generalizing method position with
  | nil =>
    obtain rfl := Option.some.inj h
    rfl
  | cons b as ih =>
    obtain ⟨e, -, ⟨-, m, -, hrest⟩ | ⟨-, hrest⟩⟩ := gather_cases h
    · exact ih hrest
    · exact ih hrest

/-- The text is an argument made of quoted texts, and `m` is its value. -/
def MeansText (t m : Text) : Prop := ∃ e, parse t = .ok e ∧ e.literal? = some m

/-- A method is the value of one of the arguments, which is made of quoted texts. -/
theorem exists_of_gather {className method : Option Text} {position : Nat} {as : List Argument}
    {x : Option Text × Option Text}
    (h : Attribute.gather imports className method position as = some x) :
    x.2 = method ∨ ∃ b ∈ as, ∃ m, MeansText b.text m ∧ x.2 = some m := by
  induction as generalizing className method position with
  | nil =>
    obtain rfl := Option.some.inj h
    exact .inl rfl
  | cons b as ih =>
    have hlater : (∃ c ∈ as, ∃ m, MeansText c.text m ∧ x.2 = some m) →
        ∃ c ∈ b :: as, ∃ m, MeansText c.text m ∧ x.2 = some m :=
      fun ⟨c, hc, hrest⟩ => ⟨c, List.mem_cons_of_mem b hc, hrest⟩
    obtain ⟨e, he, ⟨-, m, hm, hrest⟩ | ⟨-, hrest⟩⟩ := gather_cases h
    · obtain hsame | hsome := ih hrest
      · exact .inr ⟨b, List.mem_cons_self, m, ⟨e, he, hm⟩, hsame⟩
      · exact .inr (hlater hsome)
    · exact (ih hrest).imp_right hlater

/-- The test that a class and a method name. Without a method the class may name it, put together with
its class. -/
inductive Told (className : Text) : Option Text → BackReference → Prop
  | method {m : Text} (nonempty : m ≠ []) : Told className (some m) (.ofMember className m)
  | joined {c m : Text} (split : Text.splitFirst memberSeparator className = some (c, m))
      (nonempty : m ≠ []) : Told className none (.ofMember c m)
  | container (whole : ∀ c m, Text.splitFirst memberSeparator className = some (c, m) → m = []) :
      Told className none (.ofContainer className)

/-- A class alone names the member after its first double colon, if there is one, and otherwise itself. -/
theorem told_none_iff {className : Text} :
    (match Text.splitFirst memberSeparator className with
      | some (c, m) => if m = [] then some (.ofContainer className) else some (.ofMember c m)
      | none => some (.ofContainer className)) = some r ↔ Told className none r := by
  constructor
  · intro h
    split at h
    · rename_i c m hsplit
      split_ifs at h with hm <;> obtain rfl := Option.some.inj h
      · exact .container (by simp [hsplit, hm])
      · exact .joined hsplit hm
    · rename_i hsplit
      obtain rfl := Option.some.inj h
      exact .container (by simp [hsplit])
  · rintro (_ | ⟨hsplit, hm⟩ | hwhole)
    · simp [hsplit, hm]
    · split
      · rename_i c m hsplit
        exact if_pos (hwhole c m hsplit)
      · rfl

theorem classArguments_eq_some_iff {className : Text} {chosen : Option Text} :
    a.classArguments imports = some (className, chosen) ↔
      ∃ method, Attribute.gather imports none none 0 a.arguments = some (some className, method) ∧
        method.filter (· ≠ []) = chosen := by
  unfold Attribute.classArguments
  obtain _ | ⟨_ | c, method⟩ := Attribute.gather imports none none 0 a.arguments <;> simp

theorem testedBy_eq_some_iff : a.testedBy imports = some r ↔
    ∃ className method, Attribute.gather imports none none 0 a.arguments = some (some className, method) ∧
      className ≠ [] ∧ Told className (method.filter (· ≠ [])) r := by
  have hsaid : ∀ {className : Text} {chosen : Option Text}, (∀ m ∈ chosen, m ≠ []) →
      ((match chosen with
        | some m => some (.ofMember className m)
        | none => match Text.splitFirst memberSeparator className with
          | some (c, m) => if m = [] then some (.ofContainer className) else some (.ofMember c m)
          | none => some (.ofContainer className)) = some r ↔ Told className chosen r) := by
    intro className chosen hchosen
    cases chosen with
    | none => exact told_none_iff
    | some m => exact ⟨fun h => Option.some.inj h ▸ .method (hchosen m rfl), fun | .method _ => rfl⟩
  have hnonempty : ∀ (method : Option Text), ∀ m ∈ method.filter (· ≠ []), m ≠ [] := by
    intro method m hm
    simpa using (Option.filter_eq_some_iff.mp hm).2
  unfold Attribute.testedBy
  simp only [Option.bind_eq_bind, Option.bind_eq_some_iff, Prod.exists]
  constructor
  · rintro ⟨className, chosen, hclass, h⟩
    obtain ⟨method, hgather, rfl⟩ := classArguments_eq_some_iff.mp hclass
    split at h
    · cases h
    · rename_i hne
      exact ⟨className, method, hgather, hne, (hsaid (hnonempty method)).mp h⟩
  · rintro ⟨className, method, hgather, hne, htold⟩
    refine ⟨className, _, classArguments_eq_some_iff.mpr ⟨method, hgather, rfl⟩, ?_⟩
    rw [if_neg hne]
    exact (hsaid (hnonempty method)).mpr htold

theorem countP_unrooted (hp : IsMark p) (t : Text) : (unrooted t).countP p = t.countP p := by
  obtain ⟨hsame, -⟩ | hrooted := unrooted_cases t
  · rw [hsame]
  · conv => rhs; rw [hrooted, List.countP_cons, if_neg (by simp [hp.slash])]
    rfl

/-- A test has the marks of the class and the method that name it, but for the colons that are lost when
the class names both. -/
theorem Told.countP_le (hp : IsMark p) {className : Text} {method : Option Text}
    (h : Told className method r) : r.container.countP p + (r.member.getD []).countP p ≤
      className.countP p + (method.getD []).countP p := by
  cases h with
  | method => simp [BackReference.ofMember, countP_unrooted hp]
  | @joined c m split =>
    rw [Text.eq_append_of_splitFirst split, List.countP_append, List.countP_append]
    simp only [BackReference.ofMember, countP_unrooted hp, Option.getD_some]
    omega
  | container => simp [BackReference.ofContainer, countP_unrooted hp]

/-- What an attribute says has no more marks than its arguments. -/
theorem countP_of_testedBy (hp : IsMark p) (hi : imports.Named) (h : a.testedBy imports = some r) :
    r.container.countP p + (r.member.getD []).countP p ≤
      (a.arguments.flatMap Argument.text).countP p := by
  obtain ⟨className, method, hgather, -, htold⟩ := testedBy_eq_some_iff.mp h
  have hmarks := countP_of_gather hp hi hgather
  have hsaid := htold.countP_le hp
  have hmethod : ((method.filter (· ≠ [])).getD []).countP p ≤ (method.getD []).countP p := by
    cases method with
    | none => exact Nat.le_refl _
    | some m =>
      rw [Option.filter_some]
      split <;> simp
  simp only [Option.getD_some, Option.getD_none, List.countP_nil, Nat.zero_add] at hmarks
  exact hsaid.trans ((Nat.add_le_add_left hmethod _).trans hmarks)

end Crosslink.Source
