import Crosslink.Proofs.Bodies

/-!
# Declarations inside one another

A class holds its methods and a method what is declared about it, and declarations stand one after the
other. The walk through a class body keeps five things of the member that is coming until it ends. At
every token the walk comes to, whatever is kept begins behind the member before, whose end is kept too.
So nothing that stands before a member is taken for a part of the one after it.

* §1 `Method.Laid` and `DeclaredClass.Laid`, how declarations stand.
* §2 `Pending.Waits`, what holds of the member that is coming, and what one turn keeps of it.
* §3 `laid_playback`, the methods of a walk.
* §4 `classes_laid`, the classes of a source.
-/

namespace Crosslink.Source

open TokenSequence

/-! ## §1 How declarations stand -/

/-- How a method stands, with what is declared about it. -/
structure Method.Laid (l : TokenSequence) (m : Method) : Prop where
  head : m.start ≤ m.headStart
  name : m.headStart < m.nameSpan.start
  named : m.nameSpan.start < m.nameSpan.stop
  stop : m.nameSpan.stop < m.stop
  groups : ∀ g ∈ m.attributes, m.start ≤ g.span.start ∧ g.span.start < g.span.stop ∧
    g.span.stop ≤ m.nameSpan.start
  order : m.attributes.Pairwise fun g g' => g.span.stop ≤ g'.span.start
  doc : ∀ d ∈ m.doc, d ∈ l.docs ∧ d.stop ≤ m.start

/-- A method and its documentation stand behind an offset. -/
def Method.Behind (b : Nat) (m : Method) : Prop := b ≤ m.start ∧ ∀ d ∈ m.doc, b ≤ d.start

/-- How a class stands, with its methods. -/
structure DeclaredClass.Laid (l : TokenSequence) (d : DeclaredClass) : Prop where
  /-- It ends with the brace that closes its body, and its methods stand between the two braces. -/
  body : ∃ (o c : Nat) (t u : Token), l.tokens[o]? = some t ∧ t.kind = .openBrace ∧
    t.partner = some c ∧ l.tokens[c]? = some u ∧ d.span.start < t.span.start ∧
    t.span.stop ≤ u.span.start ∧ d.span.stop = u.span.stop ∧
    ∀ m ∈ d.methods, m.Behind t.span.stop ∧ m.stop ≤ u.span.start
  methods : ∀ m ∈ d.methods, m.Laid l
  order : d.methods.Pairwise fun m m' => m'.Behind m.stop

/-- How the classes of a source stand. -/
structure Laid (l : TokenSequence) (classes : List DeclaredClass) : Prop where
  each : ∀ d ∈ classes, d.Laid l
  order : classes.Pairwise fun d d' => d.span.stop ≤ d'.span.start
  /-- No group of attributes belongs to two methods. -/
  owned : (classes.flatMap DeclaredClass.methods).Pairwise fun m m' =>
    ∀ g ∈ m.attributes, g ∉ m'.attributes

/-! ## §2 The member that is coming -/

variable {l : TokenSequence} {source : Text} {p : Pending} {close b i j k n : Nat} {t u : Token} {w : Turn}
  {m m' : Method} {x : Growth} {head : MethodHead}

/-- What is kept of the member that is coming at the token `i` begins behind the member before it. -/
structure Pending.Waits (l : TokenSequence) (source : Text) (p : Pending) (i : Nat) : Prop
    extends p.Stands l source i where
  clear : ∀ k u, i ≤ k → l.tokens[k]? = some u → p.boundary ≤ u.span.start
  begins : ∀ n ∈ p.start, p.boundary ≤ n
  words : ∀ n ∈ p.headStart, ∃ s ∈ p.start, s ≤ n

theorem stop_le_of_lt (hl : tokenize source = .ok l) (hik : i < k) (hu : l.tokens[k]? = some u) :
    l.stopAt i ≤ u.span.start := by
  have hk := (Array.getElem?_eq_some_iff.mp hu).1
  have ht := Array.getElem?_eq_getElem (Nat.lt_trans hik hk)
  rw [stopAt_eq ht]
  exact stop_le_start hl ht hu hik

/-- Behind the end of a token nothing is kept yet. -/
theorem Pending.Waits.fresh (hl : tokenize source = .ok l) (hij : i < j) :
    (Pending.fresh (l.stopAt i)).Waits l source j :=
  ⟨.fresh _, fun _ _ hk hu => stop_le_of_lt hl (Nat.lt_of_lt_of_le hij hk) hu, by simp [Pending.fresh],
    by simp [Pending.fresh]⟩

/-- A member that begins at this token at the latest begins behind the one before. -/
theorem Pending.Waits.le_start {place : Option Nat} (h : p.Waits l source i) (ht : l.tokens[i]? = some t)
    (hplace : ∀ n ∈ place, n = t.span.start) : ∀ n ∈ p.start.or place, p.boundary ≤ n := by
  intro n hn
  cases hs : p.start with
  | none =>
    rw [hs, Option.none_or] at hn
    rw [hplace n hn]
    exact h.clear i t (Nat.le_refl i) ht
  | some s =>
    rw [hs] at hn
    exact h.begins n (hs ▸ hn)

/-- A member begins at this token at the latest, if something that can begin it is taken in there. -/
theorem le_start_grow (hl : tokenize source = .ok l) (h : p.Stands l source i)
    (ht : l.tokens[i]? = some t) (hplace : ∀ n ∈ x.place, n = t.span.start) :
    ∀ n ∈ x.place, ∃ s ∈ (p.grow x).start, s ≤ n := by
  intro n hn
  rw [start_grow]
  cases hs : p.start with
  | none => exact ⟨n, by simpa using hn, Nat.le_refl n⟩
  | some s =>
    obtain ⟨k, u, hk, hu, hstart⟩ := h.start s (by rw [hs]; rfl)
    have := start_lt hl hu ht hk
    have := hplace n hn
    exact ⟨s, by simp, by omega⟩

/-- What a turn takes in is kept behind the member before. -/
theorem Pending.Waits.grow {next : Nat} (hl : tokenize source = .ok l) (hclose : close < l.tokens.size)
    (h : p.Waits l source i) (ht : l.tokens[i]? = some t)
    (hturn : l.turn source close i t = some (.grow x next)) :
    (p.grow x).Waits l source (max next (i + 1)) := by
  have hstands := stands_memberStep hl hclose h.toStands ht
  rw [memberStep_eq, hturn] at hstands
  have hplace := place_of_turn (nested_of_tokenize hl) ht hturn
  have hword : ∀ n ∈ (p.grow x).headStart, n ∈ p.headStart ∨ n ∈ x.place := by
    intro n hn
    cases x with
    | group g => exact .inl hn
    | word place modifiers =>
      cases hp : p.headStart with
      | none => exact .inr (by simpa [Pending.grow, Pending.keyword, Growth.place, hp] using hn)
      | some k => exact .inl (by simpa [Pending.grow, Pending.keyword, hp] using hn)
    | skip => exact .inl hn
  refine ⟨hstands, fun k u hk hu => ?_, fun n hn => ?_, fun n hn => ?_⟩
  · rw [boundary_grow]
    exact h.clear k u (by omega) hu
  · rw [boundary_grow]
    rw [start_grow] at hn
    exact h.le_start ht hplace n hn
  · obtain hn | hn := hword n hn
    · obtain ⟨s, hs, hle⟩ := h.words n hn
      exact ⟨s, by rw [start_grow, Option.mem_def.mp hs]; rfl, hle⟩
    · exact le_start_grow hl h.toStands ht hplace n hn

/-- The name of a method stands before what ends it. -/
theorem name_lt_signature (hn : l.Nested) {name : Token} {params : Nat}
    (h : l.signature i = some (name, params)) : ∃ k, i < k ∧ k < params ∧ l.tokens[k]? = some name := by
  unfold signature at h
  obtain ⟨n, hname, h⟩ := Option.bind_eq_some_iff.mp h
  obtain ⟨opener, hopener, h⟩ := Option.bind_eq_some_iff.mp h
  obtain ⟨q, hq, h⟩ := Option.bind_eq_some_iff.mp h
  obtain ⟨rfl, rfl⟩ := Prod.mk.inj (Option.some.inj h)
  obtain ⟨htok, hkind⟩ := Option.filter_eq_some_iff.mp hopener
  have hkind : opener.kind = .openParen := of_decide_eq_true hkind
  have hlt := hn.lt_partner htok (by rw [hkind]; rfl) hq
  refine ⟨_, ?_, Nat.lt_of_succ_lt hlt, (Option.filter_eq_some_iff.mp hname).1⟩
  split <;> omega

theorem methodTurn_of_turn {next : Nat} (h : l.turn source close i t = some (.method head next)) :
    l.methodTurn close i t = some (.method head next) := by
  unfold turn at h
  split at h
  · split at h <;> cases h
  · split at h
    · cases h
    · split at h
      · exact h
      · split at h
        · cases h
        · split at h
          · cases h
          · split at h <;> cases h

/-- The name of a method stands before its last token. -/
theorem nameSpan_lt (hl : tokenize source = .ok l) {next : Nat} (hclose : close < l.tokens.size)
    (hturn : l.methodTurn close i t = some (.method head next)) :
    head.nameSpan.start < head.nameSpan.stop ∧ head.nameSpan.stop < head.stop := by
  have hn := nested_of_tokenize hl
  unfold methodTurn at hturn
  split at hturn
  · cases hturn
  · rename_i name params hsig
    obtain ⟨body, hbody, hhead⟩ := Option.map_eq_some_iff.mp hturn
    obtain ⟨k, -, hk, hname⟩ := name_lt_signature hn hsig
    obtain ⟨hle, hlt⟩ := le_of_findKind hbody
    obtain ⟨hlast, hsize⟩ := le_body hn (hlt.trans hclose)
    cases hhead
    have hlasttoken := Array.getElem?_eq_getElem hsize
    have := stop_le_start hl hname hlasttoken (by omega)
    have := token_lt hl hlasttoken
    refine ⟨token_lt hl hname, ?_⟩
    show name.span.stop < l.stopAt _
    rw [stopAt_eq hlasttoken]
    omega

/-- The method that a turn makes. -/
theorem Pending.Waits.method {next : Nat} (hl : tokenize source = .ok l) (hclose : close < l.tokens.size)
    (h : p.Waits l source i) (ht : l.tokens[i]? = some t)
    (hturn : l.turn source close i t = some (.method head next)) :
    (p.method l.docBetween head).Laid l ∧ (p.method l.docBetween head).Behind p.boundary := by
  have hstands := stands_memberStep hl hclose h.toStands ht
  rw [memberStep_eq, hturn] at hstands
  obtain ⟨-, hmethod⟩ : _ ∧ MethodAt l source (p.method l.docBetween head) := hstands
  obtain ⟨hnamed, hstop⟩ := nameSpan_lt hl hclose (methodTurn_of_turn hturn)
  have hplace : head.place = t.span.start := place_of_turn (nested_of_tokenize hl) ht hturn _ rfl
  have hstart := start_method l.docBetween p head
  have hle : (p.method l.docBetween head).start ≤ head.place := by
    obtain ⟨s, hs, hle⟩ := le_start_grow (x := .word head.place []) hl h.toStands ht
      (fun n hn => (Option.some.inj hn).symm.trans hplace) _ rfl
    rw [start_grow] at hs
    obtain rfl := Option.some.inj (hstart.trans hs)
    exact hle
  obtain ⟨k, u, hu, -, -, hspan, hruns, -, k', u', hk', hu', hhead⟩ := hmethod.name
  refine ⟨⟨?_, ?_, hnamed, hstop, fun g hg => ?_, ?_, fun d hd => ?_⟩, ?_, fun d hd => ?_⟩
  · show _ ≤ p.headStart.getD head.place
    cases hword : p.headStart with
    | none => exact hle
    | some n =>
      obtain ⟨s, hs, hsn⟩ := h.words n (by rw [hword]; rfl)
      rw [Option.mem_def.mp hs] at hstart
      obtain rfl := Option.some.inj hstart
      exact hsn
  · rw [← hhead, ← hspan]
    exact start_lt hl hu' hu hk'
  · obtain ⟨f, t, hcovers, -, ht⟩ := hruns.mem (List.mem_map_of_mem hg)
    exact ⟨hmethod.first g hg, hcovers.lt hl, hspan ▸ hcovers.stop_le_start hl (.token hu) ht⟩
  · exact List.pairwise_map.mp (hruns.order hl)
  · obtain ⟨hmem, -, hstop⟩ := docBetween_bounds hd
    exact ⟨hmem, hstop⟩
  · exact h.le_start ht (fun n hn => (Option.some.inj hn).symm.trans hplace) _ hstart.symm
  · exact (docBetween_bounds hd).2.1

/-- Where a turn ends a member, the walk waits for another one behind it. -/
theorem waits_of_boundary (hl : tokenize source = .ok l) (hc : l.partnerAt b = some close) (hb : b < i)
    (hi : i < close) (h : p.Waits l source i) (ht : l.tokens[i]? = some t)
    (hturn : l.turn source close i t = some w) (hn : n ∈ w.boundary) :
    (Pending.fresh n).Waits l source (max w.next (i + 1)) ∧ p.boundary ≤ n ∧
      ∃ k, k < close ∧ n = l.stopAt k := by
  obtain ⟨hlt, hle⟩ := turn_next (nested_of_tokenize hl) hc hb hi ht hturn
  have hstop := boundary_eq_stopAt ht hturn n hn
  have hstart := start_le_boundary hl hc hb hi ht hturn n hn
  have hbefore := h.clear i t (Nat.le_refl i) ht
  refine ⟨?_, by omega, w.next - 1, by omega, hstop⟩
  rw [hstop]
  exact .fresh hl (by omega)

/-! ## §3 The methods of a walk -/

theorem Method.Behind.mono {b b' : Nat} (h : m.Behind b) (hle : b' ≤ b) : m.Behind b' :=
  ⟨hle.trans h.1, fun d hd => hle.trans (h.2 d hd)⟩

/-- How methods stand that a walk finds before the token `close`, behind an offset. -/
structure MethodsLaid (l : TokenSequence) (close b : Nat) (ms : List Method) : Prop where
  methods : ∀ m ∈ ms, m.Laid l
  behind : ∀ m ∈ ms, m.Behind b
  before : ∀ m ∈ ms, ∃ k, k < close ∧ m.stop = l.stopAt k
  order : ms.Pairwise fun m m' => m'.Behind m.stop

theorem MethodsLaid.nil (l : TokenSequence) (close b : Nat) : MethodsLaid l close b [] :=
  ⟨by simp, by simp, by simp, .nil⟩

theorem MethodsLaid.mono {ms : List Method} {b' : Nat} (h : MethodsLaid l close b ms) (hle : b' ≤ b) :
    MethodsLaid l close b' ms :=
  ⟨h.methods, fun m hm => (h.behind m hm).mono hle, h.before, h.order⟩

theorem laid_playback (hl : tokenize source = .ok l) (hc : l.partnerAt b = some close) (hb : b < i)
    (h : p.Waits l source i) :
    MethodsLaid l close p.boundary (playback l.docBetween p (l.turnsFrom source close i)) := by
  have hclose := (nested_of_tokenize hl).lt_size hc
  fun_induction turnsFrom l source close i generalizing p with
  | case1 i hi hnone => exact .nil _ _ _
  | case2 i hi t ht hu => exact .nil _ _ _
  | case3 i hi t ht u hu ih =>
    cases u with
    | grow x next =>
      have hrest := ih (by omega) (h.grow hl hclose ht hu)
      rwa [boundary_grow] at hrest
    | reset stop next =>
      obtain ⟨hwaits, hle, -⟩ := waits_of_boundary hl hc hb hi h ht hu rfl
      exact (ih (by omega) hwaits).mono hle
    | method head next =>
      obtain ⟨hwaits, hle, hstop⟩ := waits_of_boundary hl hc hb hi h ht hu rfl
      obtain ⟨hlaid, hbehind⟩ := h.method hl hclose ht hu
      have hrest := ih (by omega) hwaits
      refine ⟨?_, ?_, ?_, ?_⟩
      · exact List.forall_mem_cons.mpr ⟨hlaid, hrest.methods⟩
      · exact List.forall_mem_cons.mpr ⟨hbehind, fun m hm => (hrest.behind m hm).mono hle⟩
      · exact List.forall_mem_cons.mpr ⟨hstop, hrest.before⟩
      · exact List.pairwise_cons.mpr ⟨hrest.behind, hrest.order⟩
  | case4 i hi => exact .nil _ _ _

/-! ## §4 The classes of a source -/

variable {H : ClassHeader} {d d' : DeclaredClass}

/-- A brace opens the body of a class. -/
theorem isKind_body (hH : H ∈ l.headersFrom i) : l.isKind H.body .openBrace = true := by
  fun_induction headersFrom l i with
  | case1 i htok => cases hH
  | case2 i t ht hr => cases hH
  | case3 i t ht r hr ih =>
    obtain hH | hH := List.mem_append.mp hH
    · replace hH := Option.mem_toList.mp hH
      unfold classTurn at hr
      split at hr
      · obtain ⟨body, -, rfl⟩ := Option.map_eq_some_iff.mp hr
        by_cases hkind : l.isKind body .openBrace = true
        · rw [if_pos hkind] at hH
          cases hc : l.partnerAt body with
          | none =>
            rw [hc] at hH
            cases hH
          | some close =>
            rw [hc] at hH
            cases hH
            exact hkind
        · rw [if_neg hkind] at hH
          cases hH
      · cases hr
        cases hH
    · exact ih hH

variable (source) in
/-- A class begins with its word. -/
theorem exists_word (hn : l.Nested) (h : H.Stands l) :
    ∃ v, l.tokens[H.first]? = some v ∧ (H.read l source).span.start = v.span.start := by
  have hlt : H.first < l.tokens.size := by
    have := h.first
    have := h.lt
    have := hn.lt_size h.partner
    omega
  have hv := Array.getElem?_eq_getElem hlt
  exact ⟨_, hv, by simp [ClassHeader.read, hv]⟩

theorem laid_read (hl : tokenize source = .ok l) (hH : H ∈ l.headersFrom i) : (H.read l source).Laid l := by
  have hn := nested_of_tokenize hl
  obtain ⟨-, hstands⟩ := stands_of_mem hn hH
  obtain ⟨t, ht, hclose⟩ := partnerAt_eq_some.mp hstands.partner
  obtain ⟨u, hu, -⟩ := partnerAt_eq_some.mp (hn.partnerAt_comm hstands.partner)
  obtain ⟨v, hv, hfirst⟩ := exists_word source hn hstands
  have hkind : t.kind = .openBrace := by
    have := of_decide_eq_true (isKind_body hH)
    rw [kindAt, ht] at this
    exact Option.some.inj this
  have hmethods : MethodsLaid l H.close (l.stopAt H.body) (H.read l source).methods := by
    have hlt := Nat.lt_succ_self H.body
    have := laid_playback hl hstands.partner hlt (.fresh hl hlt)
    rwa [← methodsFrom_eq] at this
  refine ⟨⟨H.body, H.close, t, u, ht, hkind, hclose, hu, ?_, stop_le_start hl ht hu hstands.lt,
    stopAt_eq hu, fun m hm => ⟨stopAt_eq ht ▸ hmethods.behind m hm, ?_⟩⟩,
    hmethods.methods, hmethods.order⟩
  · rw [hfirst]
    have := hstands.first
    exact start_lt hl hv ht (by omega)
  · obtain ⟨k, hk, hstop⟩ := hmethods.before m hm
    exact hstop ▸ stop_le_of_lt hl hk hu

/-- The methods of one class stand before those of a later one. -/
theorem DeclaredClass.Laid.method_le (hl : tokenize source = .ok l) (h : d.Laid l) (h' : d'.Laid l)
    (hle : d.span.stop ≤ d'.span.start) (hm : m ∈ d.methods) (hm' : m' ∈ d'.methods) :
    m.stop ≤ m'.start := by
  obtain ⟨_, _, _, u, -, -, -, hu, -, -, hstop, hmethods⟩ := h.body
  obtain ⟨_, _, t, _, ht, -, -, -, hstart, -, -, hmethods'⟩ := h'.body
  have := (hmethods m hm).2
  have := (hmethods' m' hm').1.1
  have := token_lt hl ht
  have := token_lt hl hu
  omega

/-- Of two methods, one after the other, no group belongs to both. -/
theorem Method.Laid.not_mem (h : m.Laid l) (h' : m'.Laid l) (hle : m.stop ≤ m'.start) :
    ∀ g ∈ m.attributes, g ∉ m'.attributes := by
  intro g hg hg'
  have := h.groups g hg
  have := h'.groups g hg'
  have := h.named
  have := h.stop
  omega

/-- The classes of a source and their methods stand inside and after one another. -/
theorem classes_laid (hl : tokenize source = .ok l) : Laid l (l.classes source) := by
  have hlaid : ∀ d ∈ l.classes source, d.Laid l := by
    rw [classes_eq]
    intro d hd
    obtain ⟨H, hH, rfl⟩ := List.mem_map.mp hd
    exact laid_read hl hH
  have horder : (l.classes source).Pairwise fun d d' => d.span.stop ≤ d'.span.start := by
    rw [classes_eq]
    have hn := nested_of_tokenize hl
    refine List.pairwise_map.mpr ((headersFrom_order hn 0).imp_of_mem fun {H H'} hH hH' h => ?_)
    obtain ⟨v, hv, hstart⟩ := exists_word source hn (stands_of_mem hn hH').2
    exact hstart ▸ stop_le_of_lt hl h hv
  refine ⟨hlaid, horder, List.pairwise_flatMap.mpr ⟨fun d hd => ?_, horder.imp_of_mem ?_⟩⟩
  · refine (hlaid d hd).order.imp_of_mem fun hm hm' h => ?_
    exact ((hlaid d hd).methods _ hm).not_mem ((hlaid d hd).methods _ hm') h.1
  · intro d d' hd hd' hle m hm m' hm'
    exact ((hlaid d hd).methods m hm).not_mem ((hlaid d' hd').methods m' hm')
      ((hlaid d hd).method_le hl (hlaid d' hd') hle hm hm')

/-- A class with a block, a property with a group and a comment of its own, and two methods; and a trait. -/
def declaringSource : Text :=
  "<?php\nclass A extends B \x7b\n  use T \x7b f as g; \x7d\n  /** p */ #[P] private $x = [1];\n  /** m */\n" ++
    "  #[S, T] #[U]\n  public static function m(int $a): int \x7b return $a; \x7d\n" ++
    "  abstract function n();\n\x7d\ntrait C \x7b #[V] function &o() \x7b\x7d \x7d\n"

/-- The methods of a source with their groups and comments, in its own words. -/
def TokenSequence.declarations (l : TokenSequence) (source : Text) :
    List (Text × List Text × Option Text) :=
  (l.classes source).flatMap fun d => d.methods.map fun m =>
    (m.name, m.attributes.map (·.span.slice source), m.doc.map (·.slice source))

/-- The group and the comment of the property belong to no method. -/
theorem classes_laid_declaring : ∃ l, tokenize declaringSource = .ok l ∧
    l.declarations declaringSource = ([("m", ["#[S, T]", "#[U]"], some "/** m */"), ("n", [], none),
      ("o", ["#[V]"], none)] : List (Text × List Text × Option Text)) ∧
    Laid l (l.classes declaringSource) := by
  have h : ((tokenize declaringSource).toOption.any fun l => decide (l.declarations declaringSource =
      ([("m", ["#[S, T]", "#[U]"], some "/** m */"), ("n", [], none), ("o", ["#[V]"], none)] :
        List (Text × List Text × Option Text)))) = true := by
    decide +kernel
  obtain ⟨l, hread, h⟩ := (Option.any_eq_true _ _).mp h
  have hl := eq_ok_of_toOption hread
  exact ⟨l, hl, of_decide_eq_true h, classes_laid hl⟩

end Crosslink.Source
