import Crosslink.Source.Member
import Crosslink.Proofs.Checked.Tokens

/-!
# Reading declarations with every access checked

The readers of imports, attributes and members go through the tokens by index, jump over brackets
by the index of the partner, and make spans from the tokens they have come to. The readers of this
module do the same with every token looked up that has to be there, every span made from two
offsets that have to be in order, and every loop stopped that would not get on. Tokens that may be
missing, such as the name after a keyword, are looked for as they are.

On the tokens of a source they always have a result, which is that of the reader they check.

* §1 Searching tokens.
* §2 Imports.
* §3 Attributes.
* §4 Members and classes.

## Main statements

* `Checked.importsOf_eq`, `Checked.groupAt_eq`, `Checked.classes_eq`.
-/

namespace Crosslink.Source.Checked

open Text

variable {source : Text} {l : TokenSequence} {i : Nat} {t : Token}

/-! ## 1. Searching tokens -/

/-- The first token from `i` on, before `stop`, of one of these kinds. -/
def findKind (l : TokenSequence) (kinds : List TokenKind) (stop i : Nat) : Option (Option Nat) :=
  if i < stop then do
    let t ← l.tokens[i]?
    if kinds.contains t.kind then some (some i) else findKind l kinds stop (i + 1)
  else some none
termination_by stop - i

theorem findKind_eq (kinds : List TokenKind) {stop : Nat} (hstop : stop ≤ l.tokens.size) (i : Nat) :
    findKind l kinds stop i = some (l.findKind kinds stop i) := by
  rw [findKind, TokenSequence.findKind]
  by_cases hi : i < stop
  · have hisize : i < l.tokens.size := by omega
    have ht := Array.getElem?_eq_getElem hisize
    have hkind : (l.kindAt i).any kinds.contains = kinds.contains l.tokens[i].kind := by
      simp [TokenSequence.kindAt, ht]
    simp only [if_pos hi, ht, Option.bind_eq_bind, Option.bind_some, hkind]
    split
    · rfl
    · exact findKind_eq kinds hstop (i + 1)
  · rw [if_neg hi, if_neg hi]
termination_by stop - i

/-! ## 2. Imports -/

/-- The import whose name is the token `t` at an index, and the index after it. -/
def importAt (l : TokenSequence) (lead : Text) (i : Nat) (t : Token) : (Text × Text) × Nat :=
  let full := lead ++ relativeName t.text
  let short := lastSegment ['\\'] full
  if l.tokens[i + 1]?.any (·.isWord "as") then
    ((((l.tokens[i + 2]?.filter (·.kind = .name)).map Token.text).getD short, full), i + 3)
  else ((short, full), i + 1)

theorem lt_importAt (l : TokenSequence) (lead : Text) (i : Nat) (t : Token) :
    i < (importAt l lead i t).2 := by
  unfold importAt
  simp only
  split <;> simp

/-- The imports listed between the tokens `i` and `stop`. -/
def listed (l : TokenSequence) (lead : Text) (stop i : Nat) : Option (List (Text × Text)) :=
  if i < stop then do
    let t ← l.tokens[i]?
    if t.kind = .name then
      let rest ← listed l lead stop (importAt l lead i t).2
      some ((importAt l lead i t).1 :: rest)
    else listed l lead stop (i + 1)
  else some []
termination_by stop - i
decreasing_by
  · have := lt_importAt l lead i t
    omega
  · omega

/-- The imports of the statement whose word `use` stands before the token `i`, and the index after
it. The tokens from `i` on are asked for, which exist up to the end of all. -/
def statement (l : TokenSequence) (i : Nat) : Option (List (Text × Text) × Nat) :=
  if i ≤ l.tokens.size then do
    let stop := (← findKind l [.semicolon] l.tokens.size i).getD l.tokens.size
    match l.tokens[i]?.filter (·.kind = .openParen) with
    | some opener => some ([], (opener.partner.map (· + 1)).getD (i + 1))
    | none =>
      if (l.tokens[i]?).any (·.isOneOf ["function", "const"]) then some ([], stop + 1)
      else match Imports.groupName l i with
        | some lead => (listed l lead stop (i + 3)).map fun uses => (uses, stop + 1)
        | none => (listed l [] stop i).map fun uses => (uses, stop + 1)
  else none

/-- Take in what begins at the token `t` at `i`. All but a statement with `use` looks no further
than at tokens that may be missing. -/
def collectStep (l : TokenSequence) (s : Imports.Collected) (i : Nat) (t : Token) :
    Option (Imports.Collected × Nat) :=
  if s.braces.all id && t.isWord "use" then
    (statement l (i + 1)).map fun (uses, next) =>
      ({ s with imports := { s.imports with uses := s.imports.uses ++ uses } }, next)
  else some (s.step l i t)

/-- Collect from the token `i` on. -/
def collect (l : TokenSequence) (s : Imports.Collected) (i : Nat) : Option Imports :=
  if i < l.tokens.size then do
    let t ← l.tokens[i]?
    let (s, next) ← collectStep l s i t
    if _h : i < next then collect l s next else none
  else some s.imports
termination_by l.tokens.size - i

/-- The namespace and the class imports of a file. -/
def importsOf (l : TokenSequence) : Option Imports := collect l {} 0

theorem listed_eq (lead : Text) {stop : Nat} (hstop : stop ≤ l.tokens.size) (i : Nat) :
    listed l lead stop i = some (Imports.listed l lead stop i) := by
  rw [listed, Imports.listed]
  by_cases hi : i < stop
  · have hisize : i < l.tokens.size := by omega
    have ht := Array.getElem?_eq_getElem hisize
    simp only [if_pos hi, ht, Option.bind_eq_bind, Option.bind_some]
    split
    · have hlt := lt_importAt l lead i l.tokens[i]
      have ih := listed_eq lead hstop (importAt l lead i l.tokens[i]).2
      rw [ih, Option.bind_some]
      unfold importAt
      cases hword : l.tokens[i + 1]? with
      | none => simp
      | some word =>
        simp only [Option.any_some]
        split
        · cases l.tokens[i + 2]? with
          | none => rfl
          | some a => by_cases ha : a.kind = .name <;> simp [ha, Option.filter]
        · rfl
    · exact listed_eq lead hstop (i + 1)
  · rw [if_neg hi, if_neg hi]
termination_by stop - i

theorem statement_eq (hi : i ≤ l.tokens.size) :
    statement l i = some (Imports.statement l i) := by
  have hstop : (l.findKind [.semicolon] l.tokens.size i).getD l.tokens.size ≤ l.tokens.size := by
    cases hfind : l.findKind [.semicolon] l.tokens.size i with
    | none => exact Nat.le_refl _
    | some j => exact Nat.le_of_lt (TokenSequence.le_of_findKind hfind).2
  rw [statement, Imports.statement, if_pos hi, findKind_eq _ (Nat.le_refl _)]
  simp only [Option.bind_eq_bind, Option.bind_some, listed_eq _ hstop, Option.map_some]
  cases ht : l.tokens[i]? with
  | none =>
    have hkind : l.isKind i .openParen = false := by
      simp [TokenSequence.isKind, TokenSequence.kindAt, ht]
    simp only [hkind, Option.filter_none, Bool.false_eq_true, if_false]
    split
    · rfl
    · cases Imports.groupName l i <;> rfl
  | some t =>
    have hpartner : l.partnerAt i = t.partner := by
      rw [TokenSequence.partnerAt, ht, Option.bind_some]
    simp only [isKind_eq ht, hpartner, Option.filter_some, decide_eq_true_eq]
    by_cases hkind : t.kind = .openParen
    · simp only [hkind, if_true]
      cases t.partner <;> rfl
    · simp only [hkind, if_false]
      split
      · rfl
      · cases Imports.groupName l i <;> rfl

theorem lt_statement (hn : l.Nested) (hi : i ≤ l.tokens.size) : i < (Imports.statement l i).2 := by
  have hstop : i ≤ (l.findKind [.semicolon] l.tokens.size i).getD l.tokens.size := by
    cases hfind : l.findKind [.semicolon] l.tokens.size i with
    | none => exact hi
    | some j => exact (TokenSequence.le_of_findKind hfind).1
  unfold Imports.statement
  simp only
  split
  · rename_i hkind
    obtain ⟨t, ht, hopens⟩ : ∃ t, l.tokens[i]? = some t ∧ t.kind = .openParen := by
      simpa [TokenSequence.isKind, TokenSequence.kindAt] using hkind
    cases hc : l.partnerAt i with
    | none => simp
    | some c =>
      have hpartner : t.partner = some c := by
        rwa [TokenSequence.partnerAt, ht, Option.bind_some] at hc
      have := hn.lt_partner ht (by rw [hopens]; rfl) hpartner
      simp only [Option.getD_some]
      omega
  · split
    · exact Nat.lt_succ_of_le hstop
    · split <;> exact Nat.lt_succ_of_le hstop

theorem collectStep_eq (hn : l.Nested) (s : Imports.Collected) (ht : l.tokens[i]? = some t) :
    collectStep l s i t = some (s.step l i t) := by
  have hi : i + 1 ≤ l.tokens.size := (Array.getElem?_eq_some_iff.mp ht).1
  unfold collectStep
  split
  · rename_i huse
    obtain ⟨hbraces, hword⟩ := Bool.and_eq_true_iff.mp huse
    have hkind : t.kind = .name := by
      simp only [Token.isWord, Bool.and_eq_true, decide_eq_true_eq] at hword
      exact hword.1
    have hnot : t.isWord "namespace" = false := by
      simp only [Token.isWord, Bool.and_eq_true, decide_eq_true_eq, hkind, true_and] at hword ⊢
      refine Bool.eq_false_iff.mpr fun h => ?_
      have := (length_of_sameLetters hword).symm.trans (length_of_sameLetters h)
      exact absurd this (by decide)
    have hlt := lt_statement hn hi
    rw [statement_eq hi, Imports.Collected.step]
    simp only [hkind, hnot, Bool.and_false, Bool.false_eq_true, if_false, huse, if_true,
      Option.map_some, reduceCtorEq]
    rw [Nat.max_eq_left (by omega)]
  · rfl

theorem collect_eq (hn : l.Nested) (s : Imports.Collected) (i : Nat) :
    collect l s i = some (Imports.collect l s i) := by
  rw [collect, Imports.collect]
  split
  · rename_i hi
    split
    · rename_i ht
      exact absurd ht (by simp [hi])
    · rename_i t ht
      have hlt := Imports.Collected.lt_step l s i t
      simp only [ht, Option.bind_eq_bind, Option.bind_some, collectStep_eq hn s ht, dif_pos hlt]
      exact collect_eq hn _ _
  · rename_i hi
    split
    · rfl
    · rename_i t ht
      exact absurd (Array.getElem?_eq_some_iff.mp ht).1 hi
termination_by l.tokens.size - i

/-- The imports of every source are collected with every access in range. -/
theorem importsOf_eq (hl : Source.tokenize source = .ok l) :
    importsOf l = some (Imports.ofTokens l) :=
  collect_eq (nested_of_tokenize hl) {} 0

/-! ## 3. Attributes -/

/-- The first comma from the token `i` on, before `close` and outside brackets, or a token from
`close` on. -/
def nextComma (l : TokenSequence) (close i : Nat) : Option Nat :=
  if i < close then do
    let t ← l.tokens[i]?
    if t.kind = .comma then some i else nextComma l close (lastFrom i t + 1)
  else some i
termination_by close - i
decreasing_by
  have := le_lastFrom i t
  omega

/-- The attribute whose name is the token `t` at `i`, and the index after it. -/
def attributeAt (l : TokenSequence) (source : Text) (i : Nat) (t : Token) :
    Option (Attribute × Nat) := do
  match l.tokens[i + 1]?.filter (·.kind = .openParen) with
  | none =>
    let span ← Span.between? t.span.start t.span.stop
    some (⟨t.text, t.span, span, []⟩, i + 1)
  | some opener =>
    let arguments ← arguments l source (i + 1)
    match opener.partner with
    | none =>
      let span ← Span.between? t.span.start t.span.stop
      some (⟨t.text, t.span, span, arguments⟩, i + 1)
    | some p =>
      let last ← l.tokens[p]?
      let span ← Span.between? t.span.start last.span.stop
      some (⟨t.text, t.span, span, arguments⟩, p + 1)

/-- The attributes between the tokens `i` and `close`. -/
def attributesFrom (l : TokenSequence) (source : Text) (close i : Nat) : Option (List Attribute) :=
  if i < close then do
    let t ← l.tokens[i]?
    if t.kind = .name then
      let (a, after) ← attributeAt l source i t
      let comma ← nextComma l close after
      if _h : i ≤ comma then
        let rest ← attributesFrom l source close (comma + 1)
        some (a :: rest)
      else none
    else attributesFrom l source close (i + 1)
  else some []
termination_by close - i

/-- The group that the token at an index opens. -/
def groupAt (l : TokenSequence) (source : Text) (opener : Nat) : Option (Option AttributeGroup) :=
  match l.tokens[opener]?.filter (·.kind = .attrOpen) with
  | none => some none
  | some first =>
    match first.partner with
    | none => some none
    | some close => do
      let attributes ← attributesFrom l source close (opener + 1)
      let last ← l.tokens[close]?
      let span ← Span.between? first.span.start last.span.stop
      some (some ⟨span, attributes, close + 1⟩)

variable {o c : Nat}

theorem nextComma_eq (hn : l.Nested) (hc : l.partnerAt o = some c) (i : Nat) :
    nextComma l c i = some (AttributeGroup.nextComma l c i) := by
  have hcsize := hn.lt_size hc
  rw [nextComma, AttributeGroup.nextComma]
  by_cases hi : i < c
  · have ht := Array.getElem?_eq_getElem (Nat.lt_trans hi hcsize)
    have hle := l.le_lastOf i
    simp only [hi, if_true, ht, Option.bind_eq_bind, Option.bind_some, isKind_eq ht, decide_true,
      Bool.true_and, lastFrom_eq ht]
    by_cases hcomma : l.tokens[i].kind = .comma
    · simp [hcomma]
    · simp only [hcomma, if_false, decide_false, Bool.not_false, if_true]
      exact nextComma_eq hn hc _
  · simp [hi]
termination_by c - i

/-- The span from one token to the end of another, which comes no earlier. -/
theorem between?_tokens (hl : Source.tokenize source = .ok l) (hij : i ≤ c)
    (ht : l.tokens[i]? = some t) (hc : c < l.tokens.size) :
    Span.between? t.span.start l.tokens[c].span.stop = some ⟨t.span.start, l.stopAt c⟩ := by
  have hu := Array.getElem?_eq_getElem hc
  have hfits := (Covers.of_tokens hij ht hc).fits hl
  rw [stopAt_eq hu] at hfits ⊢
  exact Span.between?_of_le hfits.le

theorem attributeAt_eq (hl : Source.tokenize source = .ok l) (ht : l.tokens[i]? = some t) :
    attributeAt l source i t = some (AttributeGroup.attributeAt l source i t) := by
  have hn := nested_of_tokenize hl
  have hspan : Span.between? t.span.start t.span.stop = some t.span :=
    Span.between?_of_le (Nat.le_of_lt (token_lt hl ht))
  unfold attributeAt AttributeGroup.attributeAt
  simp only [arguments_eq hl, hspan, Option.bind_eq_bind, Option.bind_some]
  cases hu : l.tokens[i + 1]? with
  | none =>
    simp [TokenSequence.isKind, TokenSequence.kindAt, hu]
  | some u =>
    have hpartner : l.partnerAt (i + 1) = u.partner := by
      rw [TokenSequence.partnerAt, hu, Option.bind_some]
    simp only [isKind_eq hu, Option.filter_some, decide_eq_true_eq, hpartner]
    by_cases hkind : u.kind = .openParen
    · simp only [hkind, if_true]
      cases hp : u.partner with
      | none => rfl
      | some p =>
        have hlt := hn.lt_partner hu (by rw [hkind]; rfl) hp
        have hpsize : p < l.tokens.size := hn.lt_size (hpartner.trans hp)
        simp only [Array.getElem?_eq_getElem hpsize, Option.bind_some,
          between?_tokens hl (show i ≤ p by omega) ht hpsize]
        rw [Nat.max_eq_left (by omega)]
    · simp [hkind]

theorem attributesFrom_eq (hl : Source.tokenize source = .ok l) (hc : l.partnerAt o = some c)
    (i : Nat) :
    attributesFrom l source c i = some (AttributeGroup.attributesFrom l source c i) := by
  have hn := nested_of_tokenize hl
  have hcsize := hn.lt_size hc
  rw [attributesFrom, AttributeGroup.attributesFrom]
  by_cases hi : i < c
  · have ht := Array.getElem?_eq_getElem (Nat.lt_trans hi hcsize)
    simp only [hi, if_true, ht, Option.bind_eq_bind, Option.bind_some]
    split
    · have hlt := AttributeGroup.lt_attributeAt l source i l.tokens[i]
      have hle := AttributeGroup.le_nextComma l c
        (AttributeGroup.attributeAt l source i l.tokens[i]).2
      have ih := attributesFrom_eq hl hc (AttributeGroup.nextComma l c
        (AttributeGroup.attributeAt l source i l.tokens[i]).2 + 1)
      simp only [attributeAt_eq hl ht, nextComma_eq hn hc, Option.bind_some, ih]
      rw [dif_pos (by omega)]
    · exact attributesFrom_eq hl hc (i + 1)
  · simp [hi]
termination_by c - i

/-- The attribute group at every token of a source is read with every access in range. -/
theorem groupAt_eq (hl : Source.tokenize source = .ok l) (o : Nat) :
    groupAt l source o = some (AttributeGroup.parse l source o) := by
  have hn := nested_of_tokenize hl
  unfold groupAt AttributeGroup.parse
  cases ht : l.tokens[o]? with
  | none => rfl
  | some t =>
    simp only [Option.filter_some, decide_eq_true_eq]
    by_cases hkind : t.kind = .attrOpen
    · simp only [hkind, if_true]
      cases hp : t.partner with
      | none => simp [hkind, hp]
      | some c =>
        have hc : l.partnerAt o = some c := by rw [TokenSequence.partnerAt, ht, Option.bind_some, hp]
        have hcsize := hn.lt_size hc
        have hlt := hn.lt_partner ht (by rw [hkind]; rfl) hp
        simp [hkind, hp, attributesFrom_eq hl hc, Array.getElem?_eq_getElem hcsize,
          between?_tokens hl (Nat.le_of_lt hlt) ht hcsize]
    · simp [hkind]

/-! ## 4. Members and classes -/

/-- Take in the method whose word `function` is the token `t` at `i`. -/
def methodStep (l : TokenSequence) (close : Nat) (p : Pending) (i : Nat) (t : Token) :
    Option Step :=
  let p := p.keyword t.span.start
  match l.signature i with
  | none => some (.go (i + 1) p)
  | some (name, params) => do
    match ← findKind l [.openBrace, .semicolon] close (params + 1) with
    | none => some .done
    | some body =>
      let opening ← l.tokens[body]?
      let last := if opening.kind = .openBrace then opening.partner.getD body else body
      let final ← l.tokens[last]?
      let start := p.start.getD t.span.start
      some (.found (last + 1) (.fresh final.span.stop)
        { name := name.text
          nameSpan := name.span
          start
          headStart := p.headStart.getD t.span.start
          stop := final.span.stop
          attributes := p.attributes
          doc := l.docBetween p.boundary start
          modifiers := p.modifiers })

/-- Take in what begins at the token `t` at `i` of a class body. -/
def memberStep (l : TokenSequence) (source : Text) (close : Nat) (p : Pending) (i : Nat)
    (t : Token) : Option Step :=
  if t.kind = .attrOpen then do
    match ← groupAt l source i with
    | some g => some (.go g.next (p.group g))
    | none => some (.go (i + 1) p)
  else if t.isOneOf modifierWords then
    some (.go (i + 1) { p.keyword t.span.start with modifiers := p.modifiers ++ [lower t.text] })
  else if t.isWord "function" then methodStep l close p i t
  else if t.kind = .semicolon then some (.go (i + 1) (.fresh t.span.stop))
  else if t.kind = .openBrace then do
    let last := t.partner.getD i
    let final ← l.tokens[last]?
    some (.go (last + 1) (.fresh final.span.stop))
  else if t.kind = .openParen ∨ t.kind = .openBracket then some (.go (t.partner.getD i + 1) p)
  else some (.go (i + 1) p)

/-- The methods from the token `i` on in a class body. -/
def methodsFrom (l : TokenSequence) (source : Text) (close : Nat) (p : Pending) (i : Nat) :
    Option (List Method) :=
  if i < close then do
    let t ← l.tokens[i]?
    match ← memberStep l source close p i t with
    | .go next p => if _h : i < next then methodsFrom l source close p next else none
    | .found next p m =>
      if _h : i < next then
        let rest ← methodsFrom l source close p next
        some (m :: rest)
      else none
    | .done => some []
  else some []
termination_by close - i

/-- True when the token `t` at `i` begins the declaration of a class. The token before it is looked
up unless there is none. -/
def beginsClass (l : TokenSequence) (i : Nat) (t : Token) : Option Bool := do
  let before ← if i = 0 then some none else (l.tokens[i - 1]?).map some
  some (t.isOneOf classWords && !(before.any fun b =>
    b.kind = .doubleColon || b.kind = .arrow || b.isOneOf ["new", "function", "const"]))

/-- The classes declared from the token `i` on. -/
def classesFrom (l : TokenSequence) (source : Text) (i : Nat) : Option (List DeclaredClass) :=
  if i < l.tokens.size then do
    let t ← l.tokens[i]?
    match ← beginsClass l i t, l.tokens[i + 1]?.filter (·.kind = .name) with
    | true, some name =>
      match ← findKind l [.openBrace, .semicolon, .openParen] l.tokens.size (i + 2) with
      | none => some []
      | some body =>
        let opening ← l.tokens[body]?
        match if opening.kind = .openBrace then opening.partner else none with
        | some close =>
          let last ← l.tokens[close]?
          let span ← Span.between? t.span.start last.span.stop
          let methods ← methodsFrom l source close (.fresh opening.span.stop) (body + 1)
          if _h : i < close + 1 then
            let rest ← classesFrom l source (close + 1)
            some (⟨name.text, span, methods⟩ :: rest)
          else none
        | none => if _h : i < body + 1 then classesFrom l source (body + 1) else none
    | _, _ => classesFrom l source (i + 1)
  else some []
termination_by l.tokens.size - i

/-- The classes declared in a file. -/
def classes (l : TokenSequence) (source : Text) : Option (List DeclaredClass) :=
  classesFrom l source 0

variable {p : Pending} {close : Nat}

/-- A step of the walk through a class body that gets on from an index. -/
def After (i : Nat) : Step → Prop
  | .go next _ => i < next
  | .found next _ _ => i < next
  | .done => True

theorem stopAt_getElem (h : i < l.tokens.size) : l.stopAt i = l.tokens[i].span.stop :=
  stopAt_eq (Array.getElem?_eq_getElem h)

theorem partnerAt_of_getElem? (ht : l.tokens[i]? = some t) : l.partnerAt i = t.partner := by
  rw [TokenSequence.partnerAt, ht, Option.bind_some]

theorem methodStep_eq (hn : l.Nested) (hclose : close < l.tokens.size) :
    methodStep l close p i t = some (l.methodStep close p i t) ∧
      After i (l.methodStep close p i t) := by
  unfold methodStep TokenSequence.methodStep
  simp only
  cases hsignature : l.signature i with
  | none => exact ⟨rfl, Nat.lt_succ_self i⟩
  | some x =>
    obtain ⟨name, params⟩ := x
    obtain ⟨hparams, -⟩ := lt_signature hn hsignature
    simp only [findKind_eq _ (Nat.le_of_lt hclose), Option.bind_eq_bind, Option.bind_some]
    cases hbody : l.findKind [.openBrace, .semicolon] close (params + 1) with
    | none => exact ⟨rfl, trivial⟩
    | some body =>
      obtain ⟨hle, hlt⟩ := TokenSequence.le_of_findKind hbody
      have hbodysize : body < l.tokens.size := Nat.lt_trans hlt hclose
      have ht := Array.getElem?_eq_getElem hbodysize
      obtain ⟨hlast, hlastsize⟩ := le_body hn hbodysize
      simp only [isKind_eq ht, decide_eq_true_eq, partnerAt_of_getElem? ht] at hlast hlastsize ⊢
      simp only [ht, Option.bind_some, Array.getElem?_eq_getElem hlastsize,
        stopAt_getElem hlastsize]
      refine ⟨trivial, ?_⟩
      simp only [After]
      omega

/-- A bracket that opens a list or a block is passed over to a later token of the source. -/
theorem le_partner (hn : l.Nested) (ht : l.tokens[i]? = some t) (hopens : t.kind.opens = true) :
    i ≤ t.partner.getD i ∧ t.partner.getD i < l.tokens.size := by
  have hi : i < l.tokens.size := (Array.getElem?_eq_some_iff.mp ht).1
  cases hp : t.partner with
  | none => exact ⟨Nat.le_refl i, hi⟩
  | some c =>
    have hc : l.partnerAt i = some c := (partnerAt_of_getElem? ht).trans hp
    exact ⟨Nat.le_of_lt (hn.lt_partner ht hopens hp), hn.lt_size hc⟩

theorem memberStep_eq (hl : Source.tokenize source = .ok l) (hclose : close < l.tokens.size)
    (ht : l.tokens[i]? = some t) :
    memberStep l source close p i t = some (l.memberStep source close p i t) ∧
      After i (l.memberStep source close p i t) := by
  have hn := nested_of_tokenize hl
  unfold memberStep TokenSequence.memberStep
  split
  · rw [groupAt_eq hl]
    simp only [Option.bind_eq_bind, Option.bind_some]
    cases hg : AttributeGroup.parse l source i with
    | none => exact ⟨rfl, Nat.lt_succ_self i⟩
    | some g =>
      obtain ⟨c, hg⟩ := exists_groupAt hn hg
      have hlt := hg.lt
      refine ⟨rfl, ?_⟩
      simp only [After, hg.next]
      omega
  split
  · exact ⟨rfl, Nat.lt_succ_self i⟩
  split
  · exact methodStep_eq hn hclose
  split
  · exact ⟨rfl, Nat.lt_succ_self i⟩
  split
  · rename_i hkind
    obtain ⟨hle, hlt⟩ := le_partner hn ht (by rw [hkind]; rfl)
    simp only [Array.getElem?_eq_getElem hlt, Option.bind_eq_bind, Option.bind_some,
      stopAt_getElem hlt]
    exact ⟨trivial, Nat.lt_succ_of_le hle⟩
  split
  · rename_i hkind
    have hopens : t.kind.opens = true := by rcases hkind with h | h <;> rw [h] <;> rfl
    exact ⟨rfl, Nat.lt_succ_of_le (le_partner hn ht hopens).1⟩
  · exact ⟨rfl, Nat.lt_succ_self i⟩

theorem methodsFrom_eq (hl : Source.tokenize source = .ok l) (hclose : close < l.tokens.size)
    (p : Pending) (i : Nat) :
    methodsFrom l source close p i = some (l.methodsFrom source close p i) := by
  rw [methodsFrom, TokenSequence.methodsFrom]
  by_cases hi : i < close
  · have ht := Array.getElem?_eq_getElem (Nat.lt_trans hi hclose)
    obtain ⟨hstep, hafter⟩ := memberStep_eq (p := p) hl hclose ht
    simp only [hi, if_true, ht, Option.bind_eq_bind, Option.bind_some, hstep]
    cases hcase : l.memberStep source close p i l.tokens[i] with
    | go next p' =>
      have hlt : i < next := by rw [hcase] at hafter; exact hafter
      simp only [dif_pos hlt, Nat.max_eq_left hlt]
      exact methodsFrom_eq hl hclose p' next
    | found next p' m =>
      have hlt : i < next := by rw [hcase] at hafter; exact hafter
      have ih := methodsFrom_eq hl hclose p' next
      simp only [dif_pos hlt, ih, Option.bind_some]
      rw [Nat.max_eq_left hlt]
    | done => rfl
  · simp [hi]
termination_by close - i

theorem beginsClass_eq (ht : l.tokens[i]? = some t) :
    beginsClass l i t = some (l.beginsClass i t) := by
  have hi : i < l.tokens.size := (Array.getElem?_eq_some_iff.mp ht).1
  unfold beginsClass TokenSequence.beginsClass
  by_cases hzero : i = 0
  · simp [hzero]
  · have hbefore := Array.getElem?_eq_getElem (show i - 1 < l.tokens.size by omega)
    simp [hzero, hbefore]

theorem classesFrom_eq (hl : Source.tokenize source = .ok l) (i : Nat) :
    classesFrom l source i = some (l.classesFrom source i) := by
  have hn := nested_of_tokenize hl
  rw [classesFrom, TokenSequence.classesFrom]
  split
  · rename_i hi
    split
    · rename_i ht
      exact absurd ht (by simp [hi])
    · rename_i t ht
      simp only [ht, Option.bind_eq_bind, Option.bind_some, beginsClass_eq ht,
        findKind_eq _ (Nat.le_refl _)]
      have hrest := classesFrom_eq hl (i + 1)
      cases hname : l.tokens[i + 1]?.filter (·.kind = .name) with
      | none => cases l.beginsClass i t <;> exact hrest
      | some name =>
        cases l.beginsClass i t with
        | false => exact hrest
        | true =>
          simp only
          cases hbody : l.findKind [.openBrace, .semicolon, .openParen] l.tokens.size (i + 2) with
          | none => rfl
          | some body =>
            obtain ⟨hle, hlt⟩ := TokenSequence.le_of_findKind hbody
            have hopening := Array.getElem?_eq_getElem hlt
            simp only [hopening, Option.bind_some, isKind_eq hopening, decide_eq_true_eq,
              partnerAt_of_getElem? hopening]
            cases hclose : (if l.tokens[body].kind = .openBrace then l.tokens[body].partner
              else none) with
            | none =>
              have hnext := classesFrom_eq hl (body + 1)
              simp only [dif_pos (show i < body + 1 by omega), hnext]
              rw [Nat.max_eq_left (by omega)]
            | some close =>
              obtain ⟨hkind, hpartner⟩ : l.tokens[body].kind = .openBrace ∧
                  l.tokens[body].partner = some close := by simpa using hclose
              have hbodyclose := hn.lt_partner hopening (by rw [hkind]; rfl) hpartner
              have hclosesize : close < l.tokens.size :=
                hn.lt_size ((partnerAt_of_getElem? hopening).trans hpartner)
              have hnext := classesFrom_eq hl (close + 1)
              have hmethods := methodsFrom_eq hl hclosesize (.fresh (l.stopAt body)) (body + 1)
              simp only [Array.getElem?_eq_getElem hclosesize, Option.bind_some,
                between?_tokens hl (show i ≤ close by omega) ht hclosesize,
                ← stopAt_getElem hlt, hmethods, dif_pos (show i < close + 1 by omega), hnext]
              rw [Nat.max_eq_left (by omega)]
  · rename_i hi
    split
    · rfl
    · rename_i t ht
      exact absurd (Array.getElem?_eq_some_iff.mp ht).1 hi
termination_by l.tokens.size - i

/-- The classes of every source are read with every access in range. -/
theorem classes_eq (hl : Source.tokenize source = .ok l) :
    classes l source = some (l.classes source) :=
  classesFrom_eq hl 0

end Crosslink.Source.Checked
