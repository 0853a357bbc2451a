import Crosslink.Proofs.Stretches

/-!
# Members of two sources

A class body is read on a walk from token to token. What is taken in at a token is told by tokens
alone, and what it makes of the member that is coming is told apart from that. So where a stretch of
tokens is found again in another source, the walk takes the same turns there.

* §1 `Turn`, what is taken in at a token, and `memberStep_eq`.
* §2 `turnsFrom`, the turns of a walk, and `playback`, the methods they make.
* §3 `Path`, a part of a walk.
* §4 How far a turn goes.
* §5 `turn_copied`, a turn found again.
* §6 `Path.copied` and `turnsFrom_copied`, walks found again.
-/

namespace Crosslink.Source

/-! ## §1 Turns -/

/-- What a token of a class body adds to the member that is coming. -/
inductive Growth where
  | group (g : AttributeGroup)
  /-- A modifier or the word `function` at this offset. -/
  | word (place : Nat) (modifiers : List Text)
  | skip

/-- What the tokens of a method tell of it. -/
structure MethodHead where
  name : Text
  nameSpan : Span
  /-- Where its word `function` begins. -/
  place : Nat
  /-- Where it ends. -/
  stop : Nat

/-- What is taken in at a token of a class body, and the index to go on at. -/
inductive Turn where
  | grow (x : Growth) (next : Nat)
  /-- A member that is no method ends at this offset. -/
  | reset (stop next : Nat)
  | method (head : MethodHead) (next : Nat)

/-- The index to go on at. -/
def Turn.next : Turn → Nat
  | grow _ next | reset _ next | method _ next => next

namespace Pending

/-- Take in what a token adds. -/
def grow (p : Pending) : Growth → Pending
  | .group g => p.group g
  | .word place modifiers => { p.keyword place with modifiers := p.modifiers ++ modifiers }
  | .skip => p

/-- The method that comes. `docs` gives the documentation comment between two offsets. -/
def method (p : Pending) (docs : Nat → Nat → Option Span) (head : MethodHead) : Method where
  name := head.name
  nameSpan := head.nameSpan
  start := p.start.getD head.place
  headStart := p.headStart.getD head.place
  stop := head.stop
  attributes := p.attributes
  doc := docs p.boundary (p.start.getD head.place)
  modifiers := p.modifiers

end Pending

/-- What a turn makes of the member that is coming. -/
def Turn.apply (docs : Nat → Nat → Option Span) (p : Pending) : Turn → Step
  | grow x next => .go next (p.grow x)
  | reset stop next => .go next (.fresh stop)
  | method head next => .found next (.fresh head.stop) (p.method docs head)

namespace TokenSequence

/-- What is taken in at the word `function`, which is the token `t` at `i`. -/
def methodTurn (l : TokenSequence) (close i : Nat) (t : Token) : Option Turn :=
  match l.signature i with
  | none => some (.grow (.word t.span.start []) (i + 1))
  | some (name, params) =>
    (l.findKind [.openBrace, .semicolon] close (params + 1)).map fun body =>
      let last := if l.isKind body .openBrace then (l.partnerAt body).getD body else body
      .method ⟨name.text, name.span, t.span.start, l.stopAt last⟩ (last + 1)

/-- What is taken in at the token `t` at `i` of a class body closed by the token `close`; nothing
when no method can follow. -/
def turn (l : TokenSequence) (source : Text) (close i : Nat) (t : Token) : Option Turn :=
  if t.kind = .attrOpen then
    match AttributeGroup.parse l source i with
    | some g => some (.grow (.group g) g.next)
    | none => some (.grow .skip (i + 1))
  else if t.isOneOf modifierWords then
    some (.grow (.word t.span.start [Text.lower t.text]) (i + 1))
  else if t.isWord "function" then l.methodTurn close i t
  else if t.kind = .semicolon then some (.reset t.span.stop (i + 1))
  else if t.kind = .openBrace then
    some (.reset (l.stopAt (t.partner.getD i)) (t.partner.getD i + 1))
  else if t.kind = .openParen ∨ t.kind = .openBracket then
    some (.grow .skip (t.partner.getD i + 1))
  else some (.grow .skip (i + 1))

variable {l : TokenSequence} {source : Text} {close i j : Nat} {t : Token} {p : Pending} {u : Turn}

theorem methodStep_eq : l.methodStep close p i t =
    match l.methodTurn close i t with
    | some u => u.apply l.docBetween (p.keyword t.span.start)
    | none => .done := by
  unfold methodStep methodTurn
  cases l.signature i with
  | none =>
    simp only [Turn.apply, Pending.grow, List.append_nil]
    cases hs : p.start <;> cases hh : p.headStart <;> simp [Pending.keyword, hs, hh]
  | some sig =>
    obtain ⟨name, params⟩ := sig
    dsimp only
    cases l.findKind [.openBrace, .semicolon] close (params + 1) <;> rfl

/-- The word `function` is taken in once. -/
theorem apply_methodTurn (docs : Nat → Nat → Option Span) (hu : l.methodTurn close i t = some u) :
    u.apply docs (p.keyword t.span.start) = u.apply docs p := by
  unfold methodTurn at hu
  cases hsig : l.signature i with
  | none =>
    rw [hsig] at hu
    obtain rfl := Option.some.inj hu
    simp only [Turn.apply, Pending.grow, List.append_nil]
    cases hs : p.start <;> cases hh : p.headStart <;> simp [Pending.keyword, hs, hh]
  | some sig =>
    rw [hsig] at hu
    obtain ⟨body, -, rfl⟩ := Option.map_eq_some_iff.mp hu
    cases hs : p.start <;> cases hh : p.headStart <;>
      simp [Turn.apply, Pending.method, Pending.keyword, hs, hh]

/-- A step of the walk takes its turn. -/
theorem memberStep_eq : l.memberStep source close p i t =
    match l.turn source close i t with
    | some u => u.apply l.docBetween p
    | none => .done := by
  unfold memberStep turn
  split
  · cases AttributeGroup.parse l source i <;> rfl
  · split
    · rfl
    · split
      · rw [methodStep_eq]
        cases hu : l.methodTurn close i t with
        | none => rfl
        | some u => exact apply_methodTurn _ hu
      · split
        · rfl
        · split
          · rfl
          · split <;> rfl

/-! ## §2 The turns of a walk -/

/-- The turns from the token `i` on in a class body closed by the token `close`. -/
def turnsFrom (l : TokenSequence) (source : Text) (close i : Nat) : List Turn :=
  if i < close then
    match l.tokens[i]? with
    | none => []
    | some t =>
      match l.turn source close i t with
      | none => []
      | some u => u :: turnsFrom l source close (max u.next (i + 1))
  else []
termination_by close - i

end TokenSequence

/-- The methods that some turns make. -/
def playback (docs : Nat → Nat → Option Span) (p : Pending) : List Turn → List Method
  | [] => []
  | .grow x _ :: us => playback docs (p.grow x) us
  | .reset stop _ :: us => playback docs (.fresh stop) us
  | .method head _ :: us => p.method docs head :: playback docs (.fresh head.stop) us

namespace TokenSequence

variable {l : TokenSequence} {source : Text} {close i j k : Nat} {t : Token} {p : Pending} {u : Turn}
  {us vs : List Turn}

theorem methodsFrom_eq (p : Pending) (i : Nat) :
    l.methodsFrom source close p i = playback l.docBetween p (l.turnsFrom source close i) := by
  fun_induction methodsFrom l source close p i with
  | case1 p i hi htok => rw [turnsFrom, if_pos hi, htok]; rfl
  | case2 p i hi t ht next p' hstep ih =>
    rw [memberStep_eq] at hstep
    rw [turnsFrom, if_pos hi, ht]
    dsimp only
    cases hu : l.turn source close i t with
    | none => rw [hu] at hstep; cases hstep
    | some u =>
      rw [hu] at hstep
      cases u <;> cases hstep
      · exact ih
      · exact ih
  | case3 p i hi t ht next p' m hstep ih =>
    rw [memberStep_eq] at hstep
    rw [turnsFrom, if_pos hi, ht]
    dsimp only
    cases hu : l.turn source close i t with
    | none => rw [hu] at hstep; cases hstep
    | some u =>
      rw [hu] at hstep
      cases u <;> cases hstep
      exact congrArg _ ih
  | case4 p i hi t ht hstep =>
    rw [memberStep_eq] at hstep
    rw [turnsFrom, if_pos hi, ht]
    dsimp only
    cases hu : l.turn source close i t with
    | none => rfl
    | some u =>
      rw [hu] at hstep
      cases u <;> cases hstep
  | case5 p i hi => rw [turnsFrom, if_neg hi]; rfl

/-! ## §3 Parts of a walk -/

/-- The walk goes from the token `i` to the token `j` by these turns. -/
inductive Path (l : TokenSequence) (source : Text) (close : Nat) : Nat → List Turn → Nat → Prop
  | nil (i : Nat) : Path l source close i [] i
  | cons {i j : Nat} {t : Token} {u : Turn} {us : List Turn} (lt : i < close)
      (token : l.tokens[i]? = some t) (turn : l.turn source close i t = some u)
      (rest : Path l source close (max u.next (i + 1)) us j) : Path l source close i (u :: us) j

namespace Path

theorem le (h : Path l source close i us j) : i ≤ j := by
  induction h with
  | nil i => exact Nat.le_refl i
  | cons lt token turn rest ih => omega

theorem append (h : Path l source close i us j) (h' : Path l source close j vs k) :
    Path l source close i (us ++ vs) k := by
  induction h with
  | nil i => exact h'
  | cons lt token turn rest ih => exact .cons lt token turn (ih h')

theorem turnsFrom_eq (h : Path l source close i us j) :
    l.turnsFrom source close i = us ++ l.turnsFrom source close j := by
  induction h with
  | nil i => rfl
  | cons lt token turn rest ih =>
    rw [turnsFrom, if_pos lt, token]
    dsimp only
    rw [turn, List.cons_append, ← ih]

end Path

/-- A walk can be parted between any two turns. -/
theorem exists_path (h : l.turnsFrom source close i = us ++ vs) :
    ∃ j, Path l source close i us j ∧ l.turnsFrom source close j = vs := by
  induction us generalizing i with
  | nil => exact ⟨i, .nil i, h⟩
  | cons u us ih =>
    rw [turnsFrom] at h
    split at h
    · rename_i hi
      split at h
      · cases h
      · rename_i t ht
        split at h
        · cases h
        · rename_i v hv
          obtain ⟨rfl, hrest⟩ := List.cons.inj h
          obtain ⟨j, hpath, hj⟩ := ih hrest
          exact ⟨j, .cons hi ht hv hpath, hj⟩
    · cases h

/-! ## §4 How far a turn goes -/

theorem exists_partner (hn : l.Nested) (ht : l.tokens[i]? = some t) (h : t.kind.opens = true) :
    ∃ c, t.partner = some c ∧ l.partnerAt i = some c ∧ i < c := by
  obtain ⟨c, hc⟩ := hn.partnered i t ht (.inl h)
  exact ⟨c, hc, partnerAt_eq_some.mpr ⟨t, ht, hc⟩, hn.lt_partner ht h hc⟩

theorem kind_of_ampersand (hl : tokenize source = .ok l) (ht : l.tokens[i]? = some t) (h : t.text = ['&']) :
    t.kind = .other := by
  obtain ⟨c, cs, hmeasure, htext⟩ := exists_measure hl ht
  obtain rfl : c = '&' := by
    rw [h] at htext
    exact (List.cons.inj htext).1.symm
  have hother : (measure '&' cs).1 = .token .other := by
    simp [measure, isNameStart, isAsciiBlank, startsName]
  rw [hother] at hmeasure
  simpa using hmeasure.symm

/-- A group of attributes opens with every token of its kind. -/
theorem exists_parse (source : Text) (hn : l.Nested) (ht : l.tokens[i]? = some t)
    (h : t.kind = .attrOpen) : ∃ g, AttributeGroup.parse l source i = some g := by
  obtain ⟨c, hc, -⟩ := exists_partner hn ht (by rw [h]; rfl)
  unfold AttributeGroup.parse
  rw [ht]
  simp [h, hc]

theorem opens_of_findKind {body stop : Nat}
    (h : l.findKind [.openBrace, .semicolon] stop i = some body) :
    ∃ t, l.tokens[body]? = some t ∧ (t.kind = .openBrace ∨ t.kind = .semicolon) := by
  fun_induction findKind l [.openBrace, .semicolon] stop i with
  | case1 i hi hk =>
    obtain rfl := Option.some.inj h
    unfold kindAt at hk
    cases ht : l.tokens[i]? with
    | none => rw [ht] at hk; cases hk
    | some t => exact ⟨t, rfl, by simpa [ht] using hk⟩
  | case2 i hi hk ih => exact ih h
  | case3 i hi => cases h

/-- The body of a method ends where its opening brace is closed. -/
theorem exists_last (hn : l.Nested) {body stop : Nat}
    (h : l.findKind [.openBrace, .semicolon] stop i = some body) :
    (l.isKind body .openBrace = true ∧ ∃ q, l.partnerAt body = some q ∧ body < q) ∨
      l.isKind body .openBrace = false := by
  cases hk : l.isKind body .openBrace with
  | false => exact .inr rfl
  | true =>
    obtain ⟨t, ht, -⟩ := opens_of_findKind h
    have hkind : t.kind = .openBrace := by
      have := of_decide_eq_true hk
      rw [kindAt, ht] at this
      exact Option.some.inj this
    obtain ⟨q, -, hq, hlt⟩ := exists_partner hn ht (by rw [hkind]; rfl)
    exact .inl ⟨rfl, q, hq, hlt⟩

/-- The parameters of a method of a class body are closed in it. -/
theorem signature_lt (hl : tokenize source = .ok l) {b : Nat} (hc : l.partnerAt b = some close)
    (hb : b < i) (hi : i < close) {name : Token} {params : Nat}
    (h : l.signature i = some (name, params)) : params < close := by
  have hn := nested_of_tokenize hl
  obtain ⟨o, c, -, hkind, -, -, openers, hcloses, -⟩ := hn.kinds_of_partner hc (by omega)
  obtain ⟨v, hv, rfl⟩ := Option.map_eq_some_iff.mp hkind
  -- the brace that closes the body is none of the tokens of a signature
  have hkinds : ∀ kind, kind.closes = none → v.kind ≠ kind := by
    rintro kind hnone rfl
    rw [hnone] at hcloses
    cases hcloses
  have hamp : v.text ≠ ['&'] := fun he => hkinds .other rfl (kind_of_ampersand hl hv he)
  unfold signature at h
  obtain ⟨n, hname, h⟩ := Option.bind_eq_some_iff.mp h
  obtain ⟨opener, hopener, h⟩ := Option.bind_eq_some_iff.mp h
  obtain ⟨q, hq, h⟩ := Option.bind_eq_some_iff.mp h
  obtain ⟨-, rfl⟩ := Prod.mk.inj (Option.some.inj h)
  generalize hj : (if (l.tokens[i + 1]?).any (·.text == ['&']) = true then i + 2 else i + 1) = j at *
  obtain ⟨htok, hopens⟩ := Option.filter_eq_some_iff.mp hopener
  obtain ⟨hname, hnamed⟩ := Option.filter_eq_some_iff.mp hname
  have hpartner : l.partnerAt (j + 1) = some q := partnerAt_eq_some.mpr ⟨opener, htok, hq⟩
  have hjclose : j ≠ close := by
    rintro rfl
    obtain rfl := Option.some.inj (hv.symm.trans hname)
    exact hkinds .name rfl (of_decide_eq_true hnamed)
  have hjclose' : j + 1 ≠ close := by
    rintro rfl
    obtain rfl := Option.some.inj (hv.symm.trans htok)
    exact hkinds .openParen rfl (of_decide_eq_true hopens)
  have hij : i < j ∧ j < close := by
    split at hj
    · rename_i hany
      have : i + 1 ≠ close := by
        intro he
        rw [he, hv] at hany
        exact hamp (by simpa using hany)
      omega
    · omega
  exact (hn.between hc (by omega) (by omega) hpartner).2

/-- A turn goes on to a later token of the class body. -/
theorem turn_next (hn : l.Nested) {b : Nat} (hc : l.partnerAt b = some close) (hb : b < i)
    (hi : i < close) (ht : l.tokens[i]? = some t) (hu : l.turn source close i t = some u) :
    i < u.next ∧ u.next ≤ close := by
  have hjump : t.kind.opens = true → i < t.partner.getD i + 1 ∧ t.partner.getD i + 1 ≤ close := by
    intro hopens
    obtain ⟨q, hq, hpartner, hlt⟩ := exists_partner hn ht hopens
    have := (hn.between hc hb hi hpartner).2
    rw [hq, Option.getD_some]
    omega
  unfold turn at hu
  split at hu
  · rename_i hkind
    obtain ⟨g, hg⟩ := exists_parse source hn ht hkind
    rw [hg] at hu
    obtain rfl := Option.some.inj hu
    obtain ⟨c, hat⟩ := exists_groupAt hn hg
    have := (hn.between hc hb hi hat.partner).2
    have := hat.lt
    rw [Turn.next, hat.next]
    omega
  · split at hu
    · obtain rfl := Option.some.inj hu
      exact ⟨Nat.lt_succ_self i, hi⟩
    · split at hu
      · unfold methodTurn at hu
        cases hsig : l.signature i with
        | none =>
          rw [hsig] at hu
          obtain rfl := Option.some.inj hu
          exact ⟨Nat.lt_succ_self i, hi⟩
        | some sig =>
          obtain ⟨name, params⟩ := sig
          rw [hsig] at hu
          obtain ⟨body, hbody, rfl⟩ := Option.map_eq_some_iff.mp hu
          obtain ⟨hle, hlt⟩ := le_of_findKind hbody
          have := (lt_signature hn hsig).1
          rw [Turn.next]
          obtain ⟨hbrace, q, hq, hbq⟩ | hsemi := exists_last hn hbody
          · have := (hn.between hc (by omega) hlt hq).2
            rw [if_pos hbrace, hq, Option.getD_some]
            omega
          · rw [if_neg (by simp [hsemi])]
            omega
      · split at hu
        · obtain rfl := Option.some.inj hu
          exact ⟨Nat.lt_succ_self i, hi⟩
        · split at hu
          · rename_i hbrace
            obtain rfl := Option.some.inj hu
            exact hjump (by rw [hbrace]; rfl)
          · split at hu
            · rename_i hopens
              obtain rfl := Option.some.inj hu
              exact hjump (by obtain h | h := hopens <;> rw [h] <;> rfl)
            · obtain rfl := Option.some.inj hu
              exact ⟨Nat.lt_succ_self i, hi⟩

end TokenSequence

/-! ## §5 A turn found again -/

/-- What a token adds, moved on by `d` tokens and `w` bytes. -/
def Growth.shift (d w : Nat) : Growth → Growth
  | .group g => .group (g.shift d w)
  | .word place modifiers => .word (place + w) modifiers
  | .skip => .skip

def MethodHead.shift (w : Nat) (h : MethodHead) : MethodHead :=
  ⟨h.name, h.nameSpan.shift w, h.place + w, h.stop + w⟩

/-- A turn moved on by `d` tokens and `w` bytes. -/
def Turn.shift (d w : Nat) : Turn → Turn
  | .grow x next => .grow (x.shift d w) (next + d)
  | .reset stop next => .reset (stop + w) (next + d)
  | .method head next => .method (head.shift w) (next + d)

theorem Turn.next_shift (d w : Nat) (u : Turn) : (u.shift d w).next = u.next + d := by
  cases u <;> rfl

theorem Turn.shift_zero : Turn.shift 0 0 = id := by
  funext u
  cases u with
  | grow x next => cases x <;> simp [Turn.shift, Growth.shift]
  | reset stop next => rfl
  | method head next => rfl

namespace TokenSequence

namespace Copied

variable {f : Nat → Nat} {x y d w : Nat} {s s' : Text} {l l' : TokenSequence} {i : Nat}
  {close close' : Nat} {t : Token} {u : Turn}

/-- The stretch ends where the other source does, or a group of attributes opens after it there. -/
def Ends (y d : Nat) (l' : TokenSequence) : Prop :=
  ∀ v, l'.tokens[y + d]? = some v → v.kind = .attrOpen ∧ v.text ≠ ['&']

/-- The signature of a method is found again. -/
theorem signature (h : Copied f x y d w s s' l l') (hn : l.Nested) (hx : x ≤ i) {name : Token}
    {params : Nat} (hsig : l.signature i = some (name, params)) (hy : params < y) :
    ∃ name', l'.signature (i + d) = some (name', params + d) ∧ name'.text = name.text ∧
      name'.span = name.span.shift w := by
  unfold TokenSequence.signature at hsig ⊢
  obtain ⟨n, hname, hsig⟩ := Option.bind_eq_some_iff.mp hsig
  obtain ⟨opener, hopener, hsig⟩ := Option.bind_eq_some_iff.mp hsig
  obtain ⟨q, hq, hsig⟩ := Option.bind_eq_some_iff.mp hsig
  obtain ⟨rfl, rfl⟩ := Prod.mk.inj (Option.some.inj hsig)
  obtain ⟨htok, hkind⟩ := Option.filter_eq_some_iff.mp hopener
  have hlt := hn.lt_partner htok (by rw [of_decide_eq_true hkind]; rfl) hq
  generalize hj : (if (l.tokens[i + 1]?).any (·.text == ['&']) = true then i + 2 else i + 1) = j at *
  have hij : i + 1 ≤ j := by
    rw [← hj]
    split <;> omega
  have hnext : l'.tokens[i + d + 1]? =
      l.tokens[i + 1]?.map (Token.carried f (fun _ => Span.shift w) (i + 1)) := by
    rw [Nat.add_right_comm]
    exact h.token (i + 1) (by omega) (by omega)
  have hj' : (if (l'.tokens[i + d + 1]?).any (·.text == ['&']) = true then i + d + 2 else i + d + 1) =
      j + d := by
    have hany : (l'.tokens[i + d + 1]?).any (·.text == ['&']) =
        (l.tokens[i + 1]?).any (·.text == ['&']) := by
      rw [hnext]
      cases l.tokens[i + 1]? <;> rfl
    rw [hany, ← hj]
    split <;> omega
  obtain ⟨hname, hnamed⟩ := Option.filter_eq_some_iff.mp hname
  have hfirst := h.token j (by omega) (by omega)
  have hsecond := h.token (j + 1) (by omega) (by omega)
  rw [hname] at hfirst
  rw [htok, Nat.add_right_comm] at hsecond
  refine ⟨n.carried f (fun _ => Span.shift w) j, ?_, rfl, rfl⟩
  dsimp only
  rw [hj', hfirst, hsecond]
  have hnamed' : (n.carried f (fun _ => Span.shift w) j).kind = .name := of_decide_eq_true hnamed
  have hkind' : (opener.carried f (fun _ => Span.shift w) (j + 1)).kind = .openParen :=
    of_decide_eq_true hkind
  have hpartner : (opener.carried f (fun _ => Span.shift w) (j + 1)).partner = some (q + d) := by
    rw [← h.inside q (by omega) hy]
    exact congrArg (Option.map f) hq
  simp [Option.filter, hnamed', hkind', hpartner]

/-- Where there is no signature there is none in the other source. -/
theorem signature_eq_none (h : Copied f x y d w s s' l l') (hn : l.Nested) (hends : Ends y d l')
    (hx : x ≤ i) (hi : i < y) (hsig : l.signature i = none) : l'.signature (i + d) = none := by
  -- what is looked for and not found in the stretch is not found right after it either
  have hmissing : ∀ j kind, i < j → j ≤ y → kind ≠ .attrOpen →
      (l.tokens[j]?).filter (fun t => t.kind = kind) = none ∨ j = y →
      (l'.tokens[j + d]?).filter (fun t => t.kind = kind) = none := by
    intro j kind hij hjy hkind hnone
    refine Option.filter_eq_none_iff.mpr fun v hv hk => ?_
    obtain rfl | hlt := Nat.eq_or_lt_of_le hjy
    · exact hkind (by rw [← of_decide_eq_true hk, (hends v hv).1])
    · obtain hnone | rfl := hnone
      · rw [h.token j (by omega) hlt] at hv
        obtain ⟨v₀, hv₀, rfl⟩ := Option.map_eq_some_iff.mp hv
        exact Option.filter_eq_none_iff.mp hnone v₀ hv₀ hk
      · omega
  by_cases hedge : i + 1 = y
  · have hplace : i + d + 1 = y + d := by omega
    have hany : (l'.tokens[i + d + 1]?).any (·.text == ['&']) = false := by
      rw [hplace]
      cases hv : l'.tokens[y + d]? with
      | none => rfl
      | some v => simpa using (hends v hv).2
    unfold TokenSequence.signature
    dsimp only
    rw [hany, if_neg Bool.false_ne_true, hplace, hmissing y .name (by omega) (by omega) (by decide)
      (.inr rfl)]
    rfl
  · have hany : (l'.tokens[i + d + 1]?).any (·.text == ['&']) =
        (l.tokens[i + 1]?).any (·.text == ['&']) := by
      rw [Nat.add_right_comm, h.token (i + 1) (by omega) (by omega)]
      cases l.tokens[i + 1]? <;> rfl
    unfold TokenSequence.signature at hsig ⊢
    dsimp only at hsig ⊢
    rw [hany]
    generalize hj : (if (l.tokens[i + 1]?).any (·.text == ['&']) = true then i + 2 else i + 1) = j
      at hsig
    have hj' : (if (l.tokens[i + 1]?).any (·.text == ['&']) = true then i + d + 2 else i + d + 1) =
        j + d := by
      rw [← hj]
      split <;> omega
    have hij : i < j ∧ j ≤ y := by
      rw [← hj]
      split <;> omega
    rw [hj', Nat.add_right_comm j d 1]
    by_cases hjy : j = y
    · rw [hmissing j .name hij.1 hij.2 (by decide) (.inr hjy)]
      rfl
    cases hname : (l.tokens[j]?).filter (fun t => t.kind = .name) with
    | none =>
      rw [hmissing j .name hij.1 hij.2 (by decide) (.inl hname)]
      rfl
    | some n =>
      have hopener : (l.tokens[j + 1]?).filter (fun t => t.kind = .openParen) = none := by
        cases hopener : (l.tokens[j + 1]?).filter (fun t => t.kind = .openParen) with
        | none => rfl
        | some o =>
          obtain ⟨htok, hkind⟩ := Option.filter_eq_some_iff.mp hopener
          obtain ⟨q, hq, -⟩ := exists_partner hn htok (by rw [of_decide_eq_true hkind]; rfl)
          rw [hname, hopener] at hsig
          simp [hq] at hsig
      have hnone := hmissing (j + 1) .openParen (by omega) (by omega) (by decide) (.inl hopener)
      rw [hnone]
      cases (l'.tokens[j + d]?).filter (fun t => t.kind = .name) <;> rfl

/-- No word `function` of the stretch begins a method that it does not begin in the first source. -/
def Silent (x y d : Nat) (l l' : TokenSequence) : Prop :=
  ∀ i t, x ≤ i → i < y → l.tokens[i]? = some t → t.isWord "function" = true → l.signature i = none →
    l'.signature (i + d) = none

theorem silent (h : Copied f x y d w s s' l l') (hn : l.Nested) (hends : Ends y d l') : Silent x y d l l' :=
  fun _ _ hx hi _ _ hsig => h.signature_eq_none hn hends hx hi hsig

/-- A method that ends in the stretch is taken in again. -/
theorem methodTurn (h : Copied f x y d w s s' l l') (hn : l.Nested) (hx : x ≤ i)
    (hnone : l.signature i = none → l'.signature (i + d) = none)
    (hu : l.methodTurn close i t = some u) (hy : u.next ≤ y)
    (hclose : ∀ b, b < close → b < y → b + d < close') :
    l'.methodTurn close' (i + d) (t.carried f (fun _ => Span.shift w) i) = some (u.shift d w) := by
  unfold TokenSequence.methodTurn at hu ⊢
  cases hsig : l.signature i with
  | none =>
    rw [hsig] at hu
    obtain rfl := Option.some.inj hu
    rw [hnone hsig]
    simp [Turn.shift, Growth.shift, Token.carried, Span.shift, Nat.add_right_comm]
  | some sig =>
    obtain ⟨name, params⟩ := sig
    rw [hsig] at hu
    obtain ⟨body, hbody, rfl⟩ := Option.map_eq_some_iff.mp hu
    obtain ⟨hle, hlt⟩ := le_of_findKind hbody
    have hparams := (lt_signature hn hsig).1
    dsimp only [Turn.next] at hy
    generalize hlast : (if l.isKind body .openBrace = true then (l.partnerAt body).getD body else body) =
      last at hy
    have hbl : body ≤ last := by
      obtain ⟨hbrace, q, hq, hbq⟩ | hsemi := exists_last hn hbody
      · rw [if_pos hbrace, hq, Option.getD_some] at hlast
        omega
      · rw [if_neg (by simp [hsemi])] at hlast
        omega
    obtain ⟨name', hsig', htext, hspan⟩ := h.signature hn hx hsig (by omega)
    have hbody' := h.findKind (by omega) hbody (by omega) (hclose body hlt (by omega))
    have hlast' : (if l'.isKind (body + d) .openBrace = true then
        (l'.partnerAt (body + d)).getD (body + d) else body + d) = last + d := by
      rw [h.isKind (by omega) (by omega)]
      obtain ⟨hbrace, q, hq, hbq⟩ | hsemi := exists_last hn hbody
      · rw [if_pos hbrace, hq, Option.getD_some] at hlast
        subst hlast
        rw [if_pos hbrace, h.partnerAt_inside (by omega) (by omega) hq (by omega) (by omega),
          Option.getD_some]
      · rw [if_neg (by simp [hsemi])] at hlast ⊢
        rw [hlast]
    rw [hsig']
    dsimp only
    rw [Nat.add_right_comm params, hbody', Option.map_some]
    rw [hlast', h.stopAt (by omega) (by omega), htext, hspan, Nat.add_right_comm last]
    rfl

/-- A turn that stays in the stretch is taken again. -/
theorem turn (h : Copied f x y d w s s' l l') (hn : l.Nested) (hsilent : Silent x y d l l') (hx : x ≤ i)
    (hi : i < y) (ht : l.tokens[i]? = some t) (hu : l.turn s close i t = some u) (hy : u.next ≤ y)
    (hclose : ∀ b, b < close → b < y → b + d < close') :
    l'.turn s' close' (i + d) (t.carried f (fun _ => Span.shift w) i) = some (u.shift d w) := by
  have hkind : (t.carried f (fun _ => Span.shift w) i).kind = t.kind := rfl
  have hmodifier : (t.carried f (fun _ => Span.shift w) i).isOneOf modifierWords =
      t.isOneOf modifierWords := rfl
  have hword : (t.carried f (fun _ => Span.shift w) i).isWord "function" = t.isWord "function" := rfl
  have hjump : t.kind.opens = true → t.partner.getD i + 1 ≤ y →
      (t.carried f (fun _ => Span.shift w) i).partner.getD (i + d) = t.partner.getD i + d ∧
        l'.stopAt (t.partner.getD i + d) = l.stopAt (t.partner.getD i) + w := by
    intro hopens hqy
    obtain ⟨q, hq, -, hlt⟩ := exists_partner hn ht hopens
    rw [hq, Option.getD_some] at hqy ⊢
    refine ⟨?_, h.stopAt (by omega) hqy⟩
    rw [Token.carried, hq, Option.map_some, Option.getD_some, h.inside q (by omega) hqy]
  unfold TokenSequence.turn at hu ⊢
  rw [hkind, hmodifier, hword]
  split at hu
  · rename_i hattr
    rw [if_pos hattr]
    obtain ⟨g, hg⟩ := exists_parse s hn ht hattr
    rw [hg] at hu
    obtain rfl := Option.some.inj hu
    rw [h.parse hn hg hx hy]
    rfl
  · rename_i hattr
    rw [if_neg hattr]
    split at hu
    · rename_i hmod
      rw [if_pos hmod]
      obtain rfl := Option.some.inj hu
      simp [Turn.shift, Growth.shift, Token.carried, Span.shift, Nat.add_right_comm]
    · rename_i hmod
      rw [if_neg hmod]
      split at hu
      · rename_i hfun
        rw [if_pos hfun]
        exact h.methodTurn hn hx (hsilent i t hx hi ht hfun) hu hy hclose
      · rename_i hfun
        rw [if_neg hfun]
        split at hu
        · rename_i hsemi
          rw [if_pos hsemi]
          obtain rfl := Option.some.inj hu
          simp [Turn.shift, Token.carried, Span.shift, Nat.add_right_comm]
        · rename_i hsemi
          rw [if_neg hsemi]
          split at hu
          · rename_i hbrace
            rw [if_pos hbrace]
            obtain rfl := Option.some.inj hu
            obtain ⟨hq, hstop⟩ := hjump (by rw [hbrace]; rfl) hy
            rw [hq, hstop, Nat.add_right_comm]
            rfl
          · rename_i hbrace
            rw [if_neg hbrace]
            split at hu
            · rename_i hopens
              rw [if_pos hopens]
              obtain rfl := Option.some.inj hu
              obtain ⟨hq, -⟩ := hjump (by obtain h | h := hopens <;> rw [h] <;> rfl) hy
              rw [hq, Nat.add_right_comm]
              rfl
            · rename_i hopens
              rw [if_neg hopens]
              obtain rfl := Option.some.inj hu
              rw [Nat.add_right_comm]
              rfl

/-- Where no method can follow, none can there. -/
theorem turn_eq_none (h : Copied f x y d w s s' l l') (hl : tokenize s = .ok l) (hx : x ≤ i)
    {b : Nat} (hc : l.partnerAt b = some close) (hb : b < i) (hi : i < close) (hy : close ≤ y)
    (ht : l.tokens[i]? = some t) (hu : l.turn s close i t = none) :
    l'.turn s' (close + d) (i + d) (t.carried f (fun _ => Span.shift w) i) = none := by
  have hn := nested_of_tokenize hl
  have hkind : (t.carried f (fun _ => Span.shift w) i).kind = t.kind := rfl
  have hmodifier : (t.carried f (fun _ => Span.shift w) i).isOneOf modifierWords =
      t.isOneOf modifierWords := rfl
  have hword : (t.carried f (fun _ => Span.shift w) i).isWord "function" = t.isWord "function" := rfl
  unfold TokenSequence.turn at hu ⊢
  rw [hkind, hmodifier, hword]
  split at hu
  · rename_i hattr
    obtain ⟨g, hg⟩ := exists_parse s hn ht hattr
    rw [hg] at hu
    cases hu
  · rename_i hattr
    rw [if_neg hattr]
    split at hu
    · cases hu
    · rename_i hmod
      rw [if_neg hmod]
      split at hu
      · rename_i hfun
        rw [if_pos hfun]
        unfold TokenSequence.methodTurn at hu ⊢
        cases hsig : l.signature i with
        | none =>
          rw [hsig] at hu
          cases hu
        | some sig =>
          obtain ⟨name, params⟩ := sig
          rw [hsig] at hu
          have hparams := signature_lt hl hc hb hi hsig
          obtain ⟨name', hsig', -⟩ := h.signature hn hx hsig (by omega)
          have hip := (lt_signature hn hsig).1
          have hnone := h.findKind_eq_none (i := params + 1) (by omega)
            (Option.map_eq_none_iff.mp hu) hy
          rw [hsig']
          dsimp only
          rw [Nat.add_right_comm params, hnone]
          rfl
      · split at hu
        · cases hu
        · split at hu
          · cases hu
          · split at hu <;> cases hu

end Copied

/-! ## §6 Walks found again -/

variable {f : Nat → Nat} {x y d w : Nat} {s s' : Text} {l l' : TokenSequence} {i j : Nat}
  {close close' : Nat} {us : List Turn}

/-- A part of a walk that stays in the stretch. -/
theorem Path.copied (hpath : Path l s close i us j) (h : Copied f x y d w s s' l l') (hn : l.Nested)
    (hsilent : Copied.Silent x y d l l') (hx : x ≤ i) (hj : j ≤ y)
    (hclose : ∀ b, b < close → b < y → b + d < close') :
    Path l' s' close' (i + d) (us.map (Turn.shift d w)) (j + d) := by
  induction hpath with
  | nil i => exact .nil _
  | @cons i j t u us lt token turn rest ih =>
    have hle := rest.le
    have htoken := h.token i hx (by omega)
    rw [token] at htoken
    refine .cons (hclose i lt (by omega)) htoken
      (h.turn hn hsilent hx (by omega) token turn (by omega) hclose) ?_
    rw [Turn.next_shift, Nat.add_right_comm, Nat.add_max_add_right]
    exact ih (by omega) hj

/-- The rest of a walk that stays in the stretch. -/
theorem turnsFrom_copied (h : Copied f x y d w s s' l l') (hl : tokenize s = .ok l)
    (hsilent : Copied.Silent x y d l l') {b : Nat} (hc : l.partnerAt b = some close) (hx : x ≤ i) (hb : b < i)
    (hy : close ≤ y) :
    l'.turnsFrom s' (close + d) (i + d) = (l.turnsFrom s close i).map (Turn.shift d w) := by
  have hn := nested_of_tokenize hl
  fun_induction turnsFrom l s close i with
  | case1 i hi hnone =>
    rw [turnsFrom, if_pos (by omega), h.token i hx (by omega), hnone]
    rfl
  | case2 i hi t ht hu =>
    rw [turnsFrom, if_pos (by omega), h.token i hx (by omega), ht]
    dsimp only [Option.map_some]
    rw [h.turn_eq_none hl hx hc hb hi hy ht hu]
    rfl
  | case3 i hi t ht u hu ih =>
    have hnext := turn_next hn hc hb hi ht hu
    rw [turnsFrom, if_pos (by omega), h.token i hx (by omega), ht]
    dsimp only [Option.map_some]
    rw [h.turn hn hsilent hx (by omega) ht hu (by omega)
      (show ∀ b, b < close → b < y → b + d < close + d by omega)]
    dsimp only
    rw [List.map_cons, Turn.next_shift, Nat.add_right_comm, Nat.add_max_add_right,
      ih (by omega) (by omega)]
  | case4 i hi =>
    rw [turnsFrom, if_neg (by omega)]
    rfl

end TokenSequence

end Crosslink.Source
