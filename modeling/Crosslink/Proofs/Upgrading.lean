import Crosslink.Proofs.Confining
import Crosslink.Proofs.Raising
import Crosslink.Proofs.Splicing

/-!
# Links that are given coverage

A link without coverage that is to have it is declared by an attribute whose name is replaced. The
attribute names the target it named, all other attributes of the test are read as they were, and so is
the file.

* §1 `isSegment_of_links` and `width_of_links`, the names of attributes.
* §2 `attributesOf`, the attributes of a method, and how they are read.
* §3 `exists_upgraded`, one attribute that is given coverage.
* §4 `exists_upgraded_all`, some of them.
-/

namespace Crosslink

/-! ## §1 Names -/

namespace Text

theorem utf8Size_toLower (c : Char) : c.toLower.utf8Size = c.utf8Size := by
  unfold Char.toLower
  split
  · rename_i h
    have hlow : 65 ≤ c.val.toNat := h.1
    have hhigh : c.val.toNat ≤ 90 := h.2
    have hsum : (c.val + 32).toNat = c.val.toNat + 32 := by
      have : (32 : UInt32).toNat = 32 := rfl
      rw [UInt32.toNat_add]
      omega
    have hsize : c.utf8Size = 1 := Char.utf8Size_eq_one_iff.mpr (show c.val.toNat ≤ 127 by omega)
    rw [hsize]
    exact Char.utf8Size_eq_one_iff.mpr (show (c.val + 32).toNat ≤ 127 by omega)
  · rfl

theorem width_lower (t : Text) : width (lower t) = width t := by
  induction t with
  | nil => rfl
  | cons c t ih =>
    have hcons : lower (c :: t) = c.toLower :: lower t := rfl
    rw [hcons, width_cons, width_cons, ih, utf8Size_toLower]

/-- The last segment of a name is the word that is put in its place. -/
theorem lastSegment_append {lead w : Text} (hlead : lead = [] ∨ lead.getLast? = some '\\')
    (hw : '\\' ∉ w) : lastSegment ['\\'] (lead ++ w) = w := by
  unfold lastSegment
  split
  · rename_i l r hsplit
    obtain ⟨htext, hr⟩ := splitLast_eq_some hsplit
    obtain rfl | hlast := hlead
    · rw [List.nil_append] at htext
      exact absurd (by rw [htext]; simp) hw
    · obtain ⟨u, rfl⟩ := List.getLast?_eq_some_iff.mp hlast
      have hcut : ∀ t z : Text, '\\' ∉ t →
          (t.reverse ++ '\\' :: z).takeWhile (fun c => decide (c ≠ '\\')) = t.reverse := by
        intro t z ht
        have hpos : ∀ c ∈ t.reverse, decide (c ≠ '\\') = true := fun c hc =>
          decide_eq_true fun h => ht (h ▸ List.mem_reverse.mp hc)
        rw [List.takeWhile_append_of_pos hpos, List.takeWhile_cons_of_neg (by simp), List.append_nil]
      have hreverse : w.reverse ++ '\\' :: u.reverse = r.reverse ++ '\\' :: l.reverse := by
        simpa using congrArg List.reverse htext
      have hparts := congrArg (List.takeWhile fun c => decide (c ≠ '\\')) hreverse
      rw [hcut w _ hw, hcut r _ hr] at hparts
      exact (List.reverse_injective hparts).symm
  · rename_i hnone
    obtain rfl | hlast := hlead
    · rfl
    · exact absurd (List.mem_append_left _ (List.mem_of_getLast? hlast)) (splitLast_eq_none hnone)

end Text

namespace AttributeList

open Source Source.TokenSequence

variable {source out w : Text} {l l' : TokenSequence} {i k : Nat} {a b c : Attribute} {m m' : Method}
  {pre suf as bs : List Attribute}

theorem isSegment_of_links (h : Text.sameLetters w linksName = true) : IsSegment w := by
  have hlower : Text.lower w = ['l', 'i', 'n', 'k', 's'] := eq_of_beq h
  have halpha : ∀ e : Char, e.toLower ∈ ['l', 'i', 'n', 'k', 's'] → e.isAlpha = true := by
    have hsmall : ∀ e ∈ ['l', 'i', 'n', 'k', 's'], e.isAlpha = true := by simp
    intro e he
    by_cases hupper : e.isUpper = true
    · exact Bool.or_eq_true_iff.mpr (.inl hupper)
    · have hlower : e.toLower = e := by
        unfold Char.toLower
        exact dif_neg fun hu => hupper (decide_eq_true hu)
      exact hsmall e (hlower ▸ he)
  cases w with
  | nil => cases hlower
  | cons c n =>
    obtain ⟨hc, hn⟩ := List.cons.inj (show c.toLower :: Text.lower n = _ from hlower)
    refine ⟨c, n, rfl, halpha c (by rw [hc]; decide), fun hout => ?_, fun e he => ?_⟩
    · have hnot : ∀ d ∈ outsetChars, d.toLower ≠ 'l' := by simp [outsetChars]
      exact hnot c hout hc
    · have hmem : e.toLower ∈ Text.lower n := List.mem_map_of_mem he
      rw [hn] at hmem
      simp [isNameChar, isNameStart, halpha e (List.mem_cons_of_mem _ hmem)]

theorem isSegment_linksAndCovers : IsSegment linksAndCoversName :=
  ⟨'L', "inksAndCovers".toList, rfl, by decide, by decide, List.all_eq_true.mp (by decide)⟩

theorem width_of_links (h : Text.sameLetters w linksName = true) :
    Text.width linksAndCoversName = Text.width w + 9 := by
  have hwidth := congrArg Text.width (show Text.lower w = Text.lower linksName from eq_of_beq h)
  rw [Text.width_lower, Text.width_lower] at hwidth
  rw [hwidth]
  decide

/-- A name whose last segment is a word begins a statement only if the word does. -/
theorem sameLetters_of_segment {lead word : Text} (hlead : lead = [] ∨ lead.getLast? = some '\\')
    (hword : '\\' ∉ Text.lower word) (h : Text.sameLetters (lead ++ w) word = true) :
    Text.sameLetters w word = true := by
  obtain rfl | hlast := hlead
  · exact h
  · refine absurd ?_ hword
    rw [← show Text.lower (lead ++ w) = Text.lower word from eq_of_beq h]
    exact List.mem_map.mpr ⟨'\\', List.mem_append_left _ (List.mem_of_getLast? hlast), by decide⟩

/-! ## §2 The attributes of a method -/

/-- The attributes of a method, group by group. -/
def attributesOf (m : Method) : List Attribute := m.attributes.flatMap AttributeGroup.attributes

theorem linkAttributes_eq (m : Method) : linkAttributes m = (attributesOf m).filter Attribute.isLink := by
  rw [linkAttributes, groupsWithLinks, attributesOf]
  induction m.attributes with
  | nil => rfl
  | cons g groups ih =>
    rw [List.flatMap_cons, List.filter_append, ← ih, List.filter_cons]
    split
    · rw [List.flatMap_cons]
    · rename_i hg
      have hnone : g.attributes.filter Attribute.isLink = [] := List.filter_eq_nil_iff.mpr fun a ha hlink =>
        hg (List.any_eq_true.mpr ⟨a, ha, hlink⟩)
      rw [hnone, List.nil_append]

/-- Two attributes have the same name and the same arguments. -/
structure SameReading (a b : Attribute) : Prop where
  name : b.name = a.name
  arguments : b.arguments.map Argument.text = a.arguments.map Argument.text

/-- An attribute has the arguments of another, and gives coverage. -/
structure Covering (a b : Attribute) : Prop where
  name : b.isNamed linksAndCoversName = true
  arguments : b.arguments.map Argument.text = a.arguments.map Argument.text

theorem target_of_arguments (h : b.arguments.map Argument.text = a.arguments.map Argument.text)
    (imports : Imports) : b.target imports = a.target imports := by
  refine target_congr ?_
  have := congrArg (List.map Expression.parse) h
  rwa [List.map_map, List.map_map] at this

theorem SameReading.isNamed (h : SameReading a b) (name : Text) : b.isNamed name = a.isNamed name := by
  rw [Attribute.isNamed, Attribute.isNamed, Attribute.shortName, Attribute.shortName, h.name]

theorem SameReading.trans (h : SameReading a b) (h' : SameReading b c) : SameReading a c :=
  ⟨h'.name.trans h.name, h'.arguments.trans h.arguments⟩

theorem Covering.trans (h : Covering a b) (h' : SameReading b c) : Covering a c :=
  ⟨(h'.isNamed _).trans h.name, h'.arguments.trans h.arguments⟩

theorem sameReading_shift (k : Nat) (as : List Attribute) :
    List.Forall₂ SameReading as (as.map (Attribute.shift k)) := by
  rw [List.forall₂_map_right_iff, List.forall₂_same]
  exact fun a _ => ⟨rfl, by simp [Attribute.shift, Argument.shift, Function.comp_def]⟩

/-- The same attribute of a list of lists in a row. -/
theorem exists_of_flatMap_eq {α β : Type} {f : α → List β} {xs : List α} {ys zs : List β} {y : β}
    (h : xs.flatMap f = ys ++ y :: zs) : ∃ xs₁ x xs₂ us vs, xs = xs₁ ++ x :: xs₂ ∧ f x = us ++ y :: vs ∧
      ys = xs₁.flatMap f ++ us ∧ zs = vs ++ xs₂.flatMap f := by
  induction xs generalizing ys with
  | nil => simp at h
  | cons x xs ih =>
    rw [List.flatMap_cons] at h
    obtain ⟨us, rfl, hrest⟩ | ⟨vs, hx, hrest⟩ := List.append_eq_append_iff.mp h
    · obtain ⟨xs₁, x', xs₂, us', vs', rfl, hx', rfl, rfl⟩ := ih hrest
      exact ⟨x :: xs₁, x', xs₂, us', vs', rfl, hx', by simp, rfl⟩
    · cases vs with
      | nil =>
        obtain ⟨xs₁, x', xs₂, us', vs', rfl, hx', hnil, rfl⟩ := ih (show xs.flatMap f = [] ++ y :: zs from hrest.symm)
        refine ⟨x :: xs₁, x', xs₂, us', vs', rfl, hx', ?_, rfl⟩
        rw [List.append_nil] at hx
        rw [List.flatMap_cons, List.append_assoc, ← hnil, hx, List.append_nil]
      | cons v vs =>
        obtain ⟨rfl, rfl⟩ := List.cons.inj hrest
        exact ⟨[], x, xs, ys, vs, rfl, hx, rfl, rfl⟩

/-! ## §3 One attribute -/

/-- The file of an edited source, with the test that stands where a test stood. -/
structure Edited (file : File) (i : Nat) (t : Test) (out : Text) (file' : File) (t' : Test) : Prop where
  read : File.read out = .ok file'
  imports : file'.imports = file.imports
  confined : Confined i (file.tests.map Test.case) (file'.tests.map Test.case)
  test : file'.tests[i]? = some t'
  name : t'.case.name = t.case.name
  identifier : t'.case.identifier = t.case.identifier
  start : t'.case.span.start = t.case.span.start

theorem Edited.length {file file' : File} {t t' : Test} (h : Edited file i t out file' t') :
    file'.tests.length = file.tests.length := by
  simpa using h.confined.length

theorem Edited.refl {file : File} {t : Test} (hread : File.read source = .ok file)
    (ht : file.tests[i]? = some t) : Edited file i t source file t :=
  ⟨hread, rfl, .refl _ _, ht, rfl, rfl, rfl⟩

theorem Edited.trans {file file' file'' : File} {t t' t'' : Test} {out' : Text}
    (h : Edited file i t out file' t') (h' : Edited file' i t' out' file'' t'') :
    Edited file i t out' file'' t'' where
  read := h'.read
  imports := h'.imports.trans h.imports
  confined := h.confined.trans h'.confined
  test := h'.test
  name := h'.name.trans h.name
  identifier := h'.identifier.trans h.identifier
  start := h'.start.trans h.start

/-- The edit that puts a text in the place of another. -/
theorem apply_replace (x w w' y : Text) :
    Splice.apply (x ++ (w ++ y)) [.replace ⟨Text.width x, Text.width x + Text.width w⟩ w'] =
      .ok (x ++ (w' ++ y)) := by
  have hfits : Span.Fits (x ++ (w ++ y)) ⟨Text.width x, Text.width x + Text.width w⟩ := by
    refine ⟨Nat.le_add_right _ _, Text.isBoundary_width _ _, ?_⟩
    rw [← Text.width_append, ← List.append_assoc]
    exact Text.isBoundary_width _ _
  have hafter := Text.after_width (x ++ w) y
  rw [Text.width_append, List.append_assoc] at hafter
  have hslice := Text.slice_middle [] x (w ++ y)
  rw [Text.width_nil, Nat.zero_add, List.nil_append] at hslice
  rw [Splice.apply_singleton hfits, Splice.weave, Splice.weave]
  simp only [Splice.span, Splice.text, hafter, hslice, List.append_assoc]

variable {lead : Text}

theorem shortName_renamed (hlead : lead = [] ∨ lead.getLast? = some '\\') (k : Nat) (a : Attribute) :
    (a.renamed (lead ++ linksAndCoversName) k).shortName = linksAndCoversName :=
  Text.lastSegment_append hlead (by decide)

theorem covering_renamed (hlead : lead = [] ∨ lead.getLast? = some '\\') (k : Nat) (a : Attribute) :
    Covering a (a.renamed (lead ++ linksAndCoversName) k) where
  name := by
    rw [Attribute.isNamed, shortName_renamed hlead]
    decide
  arguments := by simp [Attribute.renamed, Argument.shift, Function.comp_def]

/-- An attribute that links a test does not mark it as one. -/
theorem isNamed_test {name : Text} (h : a.isNamed name = true) (hname : name = linksName ∨ name = linksAndCoversName) :
    a.isNamed testName = false := by
  refine Bool.eq_false_iff.mpr fun htest => ?_
  have hlower : Text.lower name = Text.lower testName :=
    (show Text.lower a.shortName = Text.lower name from eq_of_beq h).symm.trans (eq_of_beq htest)
  obtain rfl | rfl := hname <;> revert hlower <;> decide

/-- The names of an attribute before and after it is given coverage are read for no statement. -/
theorem unread_of_links {j : Nat} {name : Text} (h : Renamed j k name source out l l')
    {t : Token} (ht : l.tokens[j]? = some t) (htext : t.text = lead ++ w)
    (hlead : lead = [] ∨ lead.getLast? = some '\\') (hw : Text.sameLetters w linksName = true)
    (hname : name = lead ++ linksAndCoversName) : Renamed.Unread l l' j := by
  have hnot : ∀ v ∈ [linksName, linksAndCoversName], ∀ u : Token, (∃ w, u.text = lead ++ w ∧
      Text.sameLetters w v = true) → u.isWord "use" = false ∧ u.isWord "namespace" = false := by
    rintro v hv u ⟨w, hu, hw⟩
    have hword : ∀ word : Text, '\\' ∉ Text.lower word → Text.lower v ≠ Text.lower word →
        u.isWord word = false := fun word hslash hne => by
      refine Bool.eq_false_iff.mpr fun h => hne ?_
      rw [Token.isWord, Bool.and_eq_true, hu] at h
      have := sameLetters_of_segment hlead hslash h.2
      exact (show Text.lower w = Text.lower v from eq_of_beq hw).symm.trans (eq_of_beq this)
    have hall : ∀ v ∈ [linksName, linksAndCoversName], Text.lower v ≠ Text.lower "use" ∧
        Text.lower v ≠ Text.lower "namespace" := by decide
    exact ⟨hword _ (by decide) (hall v hv).1, hword _ (by decide) (hall v hv).2⟩
  refine ⟨fun u hu => ?_, fun u hu => ?_⟩
  · obtain rfl := Option.some.inj (ht.symm.trans hu)
    exact hnot linksName (by simp) t ⟨w, htext, hw⟩
  · obtain ⟨v, -, -, hv⟩ := h.named
    obtain rfl := Option.some.inj (hv.symm.trans hu)
    exact hnot linksAndCoversName (by simp) _ ⟨_, hname, by decide⟩

/-- A link attribute of a test can be given coverage, and nothing else that is read of the file
changes. -/
theorem exists_upgraded {file : File} {t : Test} {stop : Nat} (hread : File.read source = .ok file)
    (ht : file.tests[i]? = some t) (hsplit : attributesOf t.method = as ++ a :: bs)
    (hlinks : a.isNamed linksName = true) (hclear : ClearBetween source t.case.span.start stop)
    (hstop : a.nameSpan.start < stop) :
    ∃ out file' t' b cs, Splice.apply source [upgrade a] = .ok out ∧ Edited file i t out file' t' ∧
      attributesOf t'.method = as ++ b :: cs ∧ Covering a b ∧ List.Forall₂ SameReading bs cs ∧
      ClearBetween out t.case.span.start stop := by
  obtain ⟨l, hl, rfl⟩ := exists_read hread
  obtain ⟨C₁, d, C₂, ms, m, ms', hclasses, hmethods, htest, rfl, rfl⟩ := exists_method ht
  obtain ⟨A, g, B, us, vs, hgroups, hattributes, rfl, rfl⟩ := exists_of_flatMap_eq hsplit
  replace hgroups : m.attributes = A ++ g :: B := hgroups
  replace hclear : ClearBetween source m.start stop := hclear
  obtain ⟨lead, hname, hlead⟩ := exists_shortName a
  obtain ⟨j, u, x, y, l', hu, hspan, htext, hfirst, hsource, hend, hrenamed, C₁', d', C₂', ms₁, m₁, ms₂,
    hclasses', hC₁, hC₂, hdname, hmethods', hms, hms', hm, hmstart⟩ := exists_classes_renamed hl hclasses hmethods
      hgroups hattributes hname hlead (isSegment_of_links hlinks) isSegment_linksAndCovers (width_of_links hlinks)
  have hunread := unread_of_links hrenamed hu (htext.trans hname) hlead hlinks rfl
  have huncrossed := hclear l j u hl hu hfirst (by rw [hspan]; exact hstop)
  have himports := hrenamed.ofTokens_eq hunread huncrossed
  obtain ⟨n, n', hgroups'⟩ := hm.attributes
  have htest' : isTest (x ++ (linksAndCoversName ++ y)) m₁ = true := by
    refine (isTest_of_alike hm.toAlike ?_).trans htest
    have hcover := isNamed_test (covering_renamed hlead 9 a).name (.inr rfl)
    rw [hgroups', hgroups]
    simp only [List.any_append, List.any_cons, List.any_nil, List.any_map, Bool.or_false]
    refine congrArg (_ || ·) (congrArg₂ (· || ·) ?_ ?_)
    · simp only [AttributeGroup.has, AttributeGroup.renamed, hattributes, List.any_append, List.any_cons,
        hcover, isNamed_test hlinks (.inl rfl), List.any_map]
      rfl
    · exact congrArg (List.any B) (funext fun g => has_shift n n' g testName)
  obtain ⟨-, htests⟩ := tests_around hmethods htest hmethods' htest' hdname hC₁ hC₂ hms hms'
    (Imports.ofTokens l) (Imports.ofTokens l')
  rw [← hclasses'] at htests
  have hconfined := confined_around hmethods htest hmethods' htest' hdname hC₁ hC₂ hms hms' hm.name
    (Imports.ofTokens l)
  rw [← hclasses, ← hclasses'] at hconfined
  have hread' := read_eq hrenamed.read'
  refine ⟨_, _, _, a.renamed (lead ++ linksAndCoversName) 9,
    vs.map (Attribute.shift 9) ++ (B.flatMap AttributeGroup.attributes).map (Attribute.shift n'), ?_,
    ⟨hread', himports, himports ▸ hconfined, htests, hm.name, ?_, hmstart⟩, ?_, covering_renamed hlead 9 a, ?_, ?_⟩
  · have hupgrade : upgrade a =
        .replace ⟨Text.width x, Text.width x + Text.width a.shortName⟩ linksAndCoversName := by
      rw [upgrade, hend, Nat.add_sub_cancel]
    rw [hupgrade]
    conv => lhs; rw [hsource]
    exact apply_replace _ _ _ _
  · show d.name ++ memberSeparator ++ m₁.name = d.name ++ memberSeparator ++ m.name
    rw [hm.name]
  · show attributesOf m₁ = _
    rw [attributesOf, hgroups']
    simp [AttributeGroup.renamed, AttributeGroup.shift, List.flatMap_map, List.map_flatMap]
  · exact List.rel_append (sameReading_shift 9 vs) (sameReading_shift n' _)
  · intro l₂ q v' hl₂ hv' hlow hhigh
    obtain rfl := Except.ok.inj (hl₂.symm.trans hrenamed.read')
    refine hrenamed.uncrossed hunread huncrossed ?_
    obtain ⟨v, hv⟩ := hrenamed.exists_token.mpr ⟨v', hv'⟩
    obtain hlt | rfl | hlt := Nat.lt_trichotomy q j
    · have hsame := hrenamed.before.token q (Nat.zero_le q) hlt
      rw [hv, Nat.add_zero, hv'] at hsame
      obtain rfl := Option.some.inj hsame
      exact hclear l q v hl hv hlow hhigh
    · exact huncrossed
    · have hsame := hrenamed.after.token q hlt (Array.getElem?_eq_some_iff.mp hv).1
      rw [hv, Nat.add_zero, hv'] at hsame
      obtain rfl := Option.some.inj hsame
      have := start_lt hl hu hv hlt
      replace hlow : m.start ≤ (Token.carried id (fun _ => Span.shift 9) q v).span.start := hlow
      have hshift : (Token.carried id (fun _ => Span.shift 9) q v).span.start = v.span.start + 9 := rfl
      exact hclear l q v hl hv (by omega) (by omega)

/-! ## §4 Some attributes -/

/-- An attribute is read as another, but with coverage if it is one of some. -/
def Raised (p : Attribute → Bool) (a b : Attribute) : Prop :=
  if p a = true then Covering a b else SameReading a b

theorem sameReading_trans {cs : List Attribute} (h : List.Forall₂ SameReading as bs)
    (h' : List.Forall₂ SameReading bs cs) : List.Forall₂ SameReading as cs := by
  induction h generalizing cs with
  | nil =>
    cases h'
    exact .nil
  | cons hab _ ih =>
    cases h' with
    | cons hbc hrest => exact .cons (hab.trans hbc) (ih hrest)

/-- Some of the link attributes of a test can be given coverage one after the other, the last one first. -/
theorem exists_upgraded_all {file : File} {t : Test} {stop : Nat} {p : Attribute → Bool}
    (hread : File.read source = .ok file) (ht : file.tests[i]? = some t)
    (hsplit : attributesOf t.method = as ++ bs)
    (hlinks : ∀ a ∈ as, p a = true → a.isNamed linksName = true ∧ a.nameSpan.start < stop)
    (hclear : ClearBetween source t.case.span.start stop) :
    ∃ out file' t' as' bs',
      ((as.filter p).map upgrade).reverse.foldlM (fun text s => Splice.apply text [s]) source = .ok out ∧
      Edited file i t out file' t' ∧ attributesOf t'.method = as' ++ bs' ∧
      List.Forall₂ (Raised p) as as' ∧ List.Forall₂ SameReading bs bs' := by
  induction as using List.reverseRecOn generalizing source file t bs with
  | nil =>
    exact ⟨source, file, t, [], bs, rfl, .refl hread ht, hsplit, .nil,
      List.forall₂_same.mpr fun a _ => ⟨rfl, rfl⟩⟩
  | append_singleton as a ih =>
    have hrest : ∀ b ∈ as, p b = true → b.isNamed linksName = true ∧ b.nameSpan.start < stop :=
      fun b hb => hlinks b (List.mem_append_left _ hb)
    rw [List.append_assoc, List.singleton_append] at hsplit
    rw [List.filter_append, List.filter_cons, List.filter_nil]
    by_cases hp : p a = true
    · obtain ⟨hname, hstop⟩ := hlinks a (by simp) hp
      obtain ⟨out₁, file₁, t₁, b, cs, happly, hedited, hsplit₁, hcovering, hcs, hclear₁⟩ :=
        exists_upgraded hread ht hsplit hname hclear hstop
      obtain ⟨out, file', t', as', bs', hfold, hedited', hsplit', has, hbs⟩ :=
        ih hedited.read hedited.test hsplit₁ hrest (by rw [hedited.start]; exact hclear₁)
      obtain ⟨b', cs', hb, hcs', rfl⟩ := List.forall₂_cons_left_iff.mp hbs
      refine ⟨out, file', t', as' ++ [b'], cs', ?_, hedited.trans hedited', by rw [hsplit']; simp,
        List.rel_append has (.cons ?_ .nil), sameReading_trans hcs hcs'⟩
      · rw [if_pos hp, List.map_append, List.reverse_append]
        simp only [List.map_cons, List.map_nil, List.reverse_singleton, List.singleton_append,
          List.foldlM_cons, happly]
        exact hfold
      · rw [Raised, if_pos hp]
        exact hcovering.trans hb
    · obtain ⟨out, file', t', as', bs', hfold, hedited', hsplit', has, hbs⟩ := ih hread ht hsplit hrest hclear
      obtain ⟨a', cs', ha, hcs', rfl⟩ := List.forall₂_cons_left_iff.mp hbs
      refine ⟨out, file', t', as' ++ [a'], cs', ?_, hedited', by rw [hsplit']; simp,
        List.rel_append has (.cons ?_ .nil), hcs'⟩
      · rw [if_neg hp, List.append_nil]
        exact hfold
      · rw [Raised, if_neg hp]
        exact ha

end AttributeList

end Crosslink
