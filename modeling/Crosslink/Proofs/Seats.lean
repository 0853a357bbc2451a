import Crosslink.Proofs.Members
import Crosslink.Proofs.Places

/-!
# Where a method is found on a walk

The walk through a class body makes a method in one turn, and what it has taken in for that method in
the turns right before it. New groups for the method go between two of these turns, after the last of
some of its groups or before its first word.

* §1 `pendingAfter`, the member that is coming after some turns.
* §2 `exists_turns`, the turns that a method is made of.
* §3 `Seat`, the place on a walk where new groups for a method go, and `exists_seat`.
* §4 `starts_sorted`, where the methods of a walk start.
-/

namespace Crosslink.Source

open TokenSequence

variable {us vs : List Turn} {docs : Nat → Nat → Option Span} {p : Pending} {b : Nat}
  {l : TokenSequence} {source : Text} {close i k : Nat} {u : Turn} {t : Token}

/-! ## §1 The member that is coming -/

/-- What has been taken in for the member that comes after some turns. -/
def pendingAfter (p : Pending) : List Turn → Pending
  | [] => p
  | .grow x _ :: us => pendingAfter (p.grow x) us
  | .reset stop _ :: us => pendingAfter (.fresh stop) us
  | .method head _ :: us => pendingAfter (.fresh head.stop) us

theorem pendingAfter_append : pendingAfter p (us ++ vs) = pendingAfter (pendingAfter p us) vs := by
  induction us generalizing p with
  | nil => rfl
  | cons u us ih => cases u <;> exact ih

theorem playback_append : playback docs p (us ++ vs) =
    playback docs p us ++ playback docs (pendingAfter p us) vs := by
  induction us generalizing p with
  | nil => rfl
  | cons u us ih =>
    cases u with
    | grow x next => exact ih
    | reset stop next => exact ih
    | method head next => exact congrArg _ ih

/-! ## §2 The turns of a method -/

/-- What is taken in for a member in some turns. -/
def growAll (p : Pending) (xs : List (Growth × Nat)) : Pending := xs.foldl (fun p x => p.grow x.1) p

/-- The turns in which it is taken in. -/
def growTurns (xs : List (Growth × Nat)) : List Turn := xs.map fun x => .grow x.1 x.2

/-- The groups that are taken in. -/
def groupsIn (xs : List (Growth × Nat)) : List AttributeGroup :=
  xs.filterMap fun x => match x.1 with
    | .group g => some g
    | _ => none

variable {xs ys : List (Growth × Nat)} {m : Method} {ms ms' : List Method}

theorem growAll_append (p : Pending) (xs ys : List (Growth × Nat)) :
    growAll p (xs ++ ys) = growAll (growAll p xs) ys := List.foldl_append

theorem growTurns_append (xs ys : List (Growth × Nat)) :
    growTurns (xs ++ ys) = growTurns xs ++ growTurns ys := List.map_append

theorem groupsIn_append (xs ys : List (Growth × Nat)) :
    groupsIn (xs ++ ys) = groupsIn xs ++ groupsIn ys := List.filterMap_append

/-- The turns at some groups. -/
def turnsAt (gs : List AttributeGroup) : List (Growth × Nat) := gs.map fun g => (.group g, g.next)

theorem groupsIn_turnsAt (gs : List AttributeGroup) : groupsIn (turnsAt gs) = gs := by
  simp [groupsIn, turnsAt, List.filterMap_map]

theorem pendingAfter_growTurns (p : Pending) (xs : List (Growth × Nat)) :
    pendingAfter p (growTurns xs) = growAll p xs := by
  induction xs generalizing p with
  | nil => rfl
  | cons x xs ih => exact ih (p.grow x.1)

theorem playback_growTurns (p : Pending) (xs : List (Growth × Nat)) (us : List Turn) :
    playback docs p (growTurns xs ++ us) = playback docs (growAll p xs) us := by
  induction xs generalizing p with
  | nil => rfl
  | cons x xs ih => exact ih (p.grow x.1)

theorem boundary_grow (p : Pending) (x : Growth) : (p.grow x).boundary = p.boundary := by
  cases x <;> rfl

theorem boundary_growAll (p : Pending) (xs : List (Growth × Nat)) :
    (growAll p xs).boundary = p.boundary := by
  induction xs generalizing p with
  | nil => rfl
  | cons x xs ih =>
    obtain ⟨x, next⟩ := x
    exact (ih (p.grow x)).trans (boundary_grow p x)

theorem attributes_growAll (p : Pending) (xs : List (Growth × Nat)) :
    (growAll p xs).attributes = p.attributes ++ groupsIn xs := by
  induction xs generalizing p with
  | nil => simp [growAll, groupsIn]
  | cons x xs ih =>
    obtain ⟨x, next⟩ := x
    have hstep : growAll p ((x, next) :: xs) = growAll (p.grow x) xs := rfl
    rw [hstep, ih]
    cases x <;> simp [groupsIn, Pending.grow, Pending.group, Pending.keyword]

/-- The turns that a method is made of come after those of the members before it. -/
theorem exists_turns (h : playback docs (.fresh b) us = ms ++ m :: ms') :
    ∃ us₁ xs head next us₂ b', us = us₁ ++ (growTurns xs ++ .method head next :: us₂) ∧
      m = (growAll (.fresh b') xs).method docs head ∧ playback docs (.fresh b) us₁ = ms ∧
      pendingAfter (.fresh b) us₁ = .fresh b' ∧ playback docs (.fresh head.stop) us₂ = ms' := by
  -- the turns since the last member, with what they have made of the one that comes
  suffices hall : ∀ (us : List Turn) (xs : List (Growth × Nat)) (b : Nat) (ms : List Method),
      playback docs (growAll (.fresh b) xs) us = ms ++ m :: ms' →
      ∃ us₁ xs' head next us₂ b', growTurns xs ++ us =
          us₁ ++ (growTurns xs' ++ .method head next :: us₂) ∧
        m = (growAll (.fresh b') xs').method docs head ∧ playback docs (.fresh b) us₁ = ms ∧
        pendingAfter (.fresh b) us₁ = .fresh b' ∧ playback docs (.fresh head.stop) us₂ = ms' from
    hall us [] b ms h
  intro us
  induction us with
  | nil => intro xs b ms h; simp [playback] at h
  | cons u us ih =>
    intro xs b ms h
    cases u with
    | grow x next =>
      have hgrown : growAll (.fresh b) (xs ++ [(x, next)]) = (growAll (.fresh b) xs).grow x :=
        growAll_append _ _ _
      have hturns : growTurns (xs ++ [(x, next)]) ++ us = growTurns xs ++ .grow x next :: us := by
        simp [growTurns]
      have := ih (xs ++ [(x, next)]) b ms (by rw [hgrown]; exact h)
      rwa [hturns] at this
    | reset stop next =>
      obtain ⟨us₁, xs', head, nx, us₂, b', hus, hm, hms, hpend, hms'⟩ := ih [] stop ms h
      refine ⟨growTurns xs ++ .reset stop next :: us₁, xs', head, nx, us₂, b', ?_, hm, ?_, ?_, hms'⟩
      · rw [List.append_assoc, List.cons_append, ← hus]
        rfl
      · rw [playback_growTurns]
        exact hms
      · rw [pendingAfter_append]
        exact hpend
    | method head next =>
      rw [playback] at h
      cases ms with
      | nil =>
        obtain ⟨rfl, hms'⟩ := List.cons.inj h
        exact ⟨[], xs, head, next, us, b, rfl, rfl, rfl, rfl, hms'⟩
      | cons m₀ ms =>
        obtain ⟨rfl, hrest⟩ := List.cons.inj h
        obtain ⟨us₁, xs', head', nx, us₂, b', hus, hm, hms, hpend, hms'⟩ := ih [] head.stop ms hrest
        refine ⟨growTurns xs ++ .method head next :: us₁, xs', head', nx, us₂, b', ?_, hm, ?_, ?_, hms'⟩
        · rw [List.append_assoc, List.cons_append, ← hus]
          rfl
        · rw [playback_growTurns, playback, hms]
        · rw [pendingAfter_append]
          exact hpend

/-! ## §3 The place for new groups -/

/-- The groups of a method below the last of which new ones go: those with a property, or all when
none has it. -/
def anchorsBy (q : AttributeGroup → Bool) (m : Method) : List AttributeGroup :=
  if (m.attributes.filter q).isEmpty then m.attributes else m.attributes.filter q

/-- The groups of a method up to the last anchor, and those after it, which lack the property. -/
theorem exists_anchor (q : AttributeGroup → Bool) (m : Method) :
    m.attributes = [] ∧ anchorsBy q m = [] ∨
      ∃ A g B, m.attributes = A ++ g :: B ∧ (anchorsBy q m).getLast? = some g ∧
        ∀ d ∈ B, q d = false := by
  have hlast : ∀ gs : List AttributeGroup, gs.filter q ≠ [] →
      ∃ A g B, gs = A ++ g :: B ∧ (gs.filter q).getLast? = some g ∧ ∀ d ∈ B, q d = false := by
    intro gs
    induction gs using List.reverseRecOn with
    | nil => simp
    | append_singleton gs g ih =>
      intro hne
      by_cases hg : q g = true
      · exact ⟨gs, g, [], rfl, by simp [hg], by simp⟩
      · obtain ⟨A, g', B, rfl, hlast, hnone⟩ := ih (by simpa [hg] using hne)
        refine ⟨A, g', B ++ [g], by simp, by simpa [List.filter_append, hg] using hlast, fun d hd => ?_⟩
        obtain hd | hd := List.mem_append.mp hd
        · exact hnone d hd
        · obtain rfl := List.mem_singleton.mp hd
          exact Bool.eq_false_iff.mpr hg
  unfold anchorsBy
  split
  · cases hm : m.attributes using List.reverseRecOn with
    | nil => exact .inl ⟨rfl, rfl⟩
    | append_singleton gs g => exact .inr ⟨gs, g, [], rfl, List.getLast?_concat, by simp⟩
  · rename_i hne
    obtain ⟨A, g, B, hm, hg, hnone⟩ := hlast m.attributes (by simpa using hne)
    exact .inr ⟨A, g, B, hm, hg, hnone⟩

/-- The token at which new groups are put before a method with these anchors whose first word starts
at this offset: the one after the last anchor, or the first word. -/
inductive Point (l : TokenSequence) (source : Text) (anchors : List AttributeGroup) (start : Nat) :
    Nat → Prop
  | below {g : AttributeGroup} {o c : Nat} (anchor : anchors.getLast? = some g)
      (group : GroupAt l source g o c) : Point l source anchors start (c + 1)
  | above {k : Nat} {t : Token} (none : anchors = []) (token : l.tokens[k]? = some t)
      (name : startsName t.text = true) (place : t.span.start = start) :
      Point l source anchors start k

/-- The number of that token. -/
def pointOf (l : TokenSequence) (anchors : List AttributeGroup) (start : Nat) : Nat :=
  match anchors.getLast? with
  | some g => g.next
  | none => l.tokens.findIdx fun t => start ≤ t.span.start

theorem Point.eq_pointOf {anchors : List AttributeGroup} {start : Nat} (hl : tokenize source = .ok l)
    (h : Point l source anchors start k) : k = pointOf l anchors start := by
  unfold pointOf
  cases h with
  | below anchor group =>
    rw [anchor]
    exact group.next.symm
  | above none token name place =>
    rw [none]
    obtain ⟨hk, rfl⟩ := Array.getElem?_eq_some_iff.mp token
    refine ((Array.findIdx_eq hk).mpr ⟨by simp [place], fun j hj => decide_eq_false ?_⟩).symm
    have := start_lt hl (Array.getElem?_eq_getElem (by omega)) token hj
    omega

/-- The walk over a class body from the token `i` on comes by the turns `us` to the token `k`. By then
it has made the methods `ms` and taken in `xs₁` for the method `m`, and it goes on with `xs₂`, the
method's own turn and the turns that make the methods `ms'`. -/
structure Seat (l : TokenSequence) (source : Text) (docs : Nat → Nat → Option Span)
    (close i b : Nat) (ms : List Method) (m : Method) (ms' : List Method) (us : List Turn) (k b' : Nat)
    (xs₁ xs₂ : List (Growth × Nat)) (head : MethodHead) : Prop where
  path : TokenSequence.Path l source close i us k
  lt : k < close
  before : playback docs (.fresh b) us = ms
  pending : pendingAfter (.fresh b) us = growAll (.fresh b') xs₁
  rest : ∃ next us₂, l.turnsFrom source close k = growTurns xs₂ ++ .method head next :: us₂ ∧
    playback docs (.fresh head.stop) us₂ = ms'
  method : m = (growAll (.fresh b') (xs₁ ++ xs₂)).method docs head

theorem Seat.attributes {us : List Turn} {b' : Nat} {xs₁ xs₂ : List (Growth × Nat)} {head : MethodHead}
    (h : Seat l source docs close i b ms m ms' us k b' xs₁ xs₂ head) :
    m.attributes = groupsIn xs₁ ++ groupsIn xs₂ := by
  rw [h.method, ← groupsIn_append]
  exact attributes_growAll _ _

/-- What is known of the first of some turns. -/
theorem exists_turn (h : l.turnsFrom source close i = u :: us) :
    ∃ t, i < close ∧ l.tokens[i]? = some t ∧ l.turn source close i t = some u ∧
      l.turnsFrom source close (max u.next (i + 1)) = us := by
  rw [turnsFrom] at h
  split at h
  · rename_i hi
    split at h
    · cases h
    · rename_i t ht
      split at h
      · cases h
      · rename_i v hv
        obtain ⟨rfl, hrest⟩ := List.cons.inj h
        exact ⟨t, hi, ht, hv, hrest⟩
  · cases h

theorem startsName_of_lower {t : Text} (h : startsName (Text.lower t) = true) : startsName t = true := by
  cases t with
  | nil => cases h
  | cons c t =>
    by_cases hc : c.isUpper = true
    · have halpha : c.isAlpha = true := Bool.or_eq_true_iff.mpr (.inl hc)
      simp [startsName, isNameStart, halpha]
    · have hlower : c.toLower = c := by
        unfold Char.toLower
        exact dif_neg fun hu => hc (decide_eq_true hu)
      rw [Text.lower, List.map_cons, hlower] at h
      exact h

theorem startsName_of_isWord {t : Token} {word : Text} (h : t.isWord word = true)
    (hword : startsName (Text.lower word) = true) : startsName t.text = true := by
  rw [Token.isWord, Bool.and_eq_true] at h
  refine startsName_of_lower ?_
  rw [show Text.lower t.text = Text.lower word from eq_of_beq h.2]
  exact hword

/-- What each turn is taken at. -/
theorem turn_cases (h : l.turn source close i t = some u) :
    (∃ g, AttributeGroup.parse l source i = some g ∧ u = .grow (.group g) g.next) ∨
      (startsName t.text = true ∧
        ((∃ modifiers next, u = .grow (.word t.span.start modifiers) next) ∨
          ∃ head next, head.place = t.span.start ∧ u = .method head next)) ∨
      (∃ next, u = .grow .skip next) ∨ ∃ stop next, u = .reset stop next := by
  have hskip : ∀ next, some (.grow .skip next) = some u → ∃ next, u = .grow .skip next :=
    fun next hu => ⟨next, (Option.some.inj hu).symm⟩
  have hreset : ∀ stop next, some (.reset stop next) = some u → ∃ stop next, u = .reset stop next :=
    fun stop next hu => ⟨stop, next, (Option.some.inj hu).symm⟩
  unfold turn at h
  split at h
  · cases hg : AttributeGroup.parse l source i with
    | none =>
      rw [hg] at h
      exact .inr (.inr (.inl (hskip _ h)))
    | some g =>
      rw [hg] at h
      exact .inl ⟨g, rfl, (Option.some.inj h).symm⟩
  · split at h
    · rename_i hmodifier
      obtain ⟨w, hmem, hw⟩ := List.any_eq_true.mp hmodifier
      have hletters : ∀ w ∈ modifierWords, startsName (Text.lower w) = true := by decide
      exact .inr (.inl ⟨startsName_of_isWord hw (hletters w hmem),
        .inl ⟨_, _, (Option.some.inj h).symm⟩⟩)
    · split at h
      · rename_i hfunction
        have hname := startsName_of_isWord hfunction (by decide)
        unfold methodTurn at h
        cases hsig : l.signature i with
        | none =>
          rw [hsig] at h
          exact .inr (.inl ⟨hname, .inl ⟨_, _, (Option.some.inj h).symm⟩⟩)
        | some sig =>
          rw [hsig] at h
          obtain ⟨body, -, rfl⟩ := Option.map_eq_some_iff.mp h
          exact .inr (.inl ⟨hname, .inr ⟨_, _, rfl, rfl⟩⟩)
      · split at h
        · exact .inr (.inr (.inr (hreset _ _ h)))
        · split at h
          · exact .inr (.inr (.inr (hreset _ _ h)))
          · split at h <;> exact .inr (.inr (.inl (hskip _ h)))

/-- The head of a member begins at its first word. -/
theorem headStart_growAll (b : Nat) (xs : List (Growth × Nat)) :
    (growAll (.fresh b) xs).headStart = none ∨
      ∃ xs₁ place modifiers next xs₂, xs = xs₁ ++ (.word place modifiers, next) :: xs₂ ∧
        (growAll (.fresh b) xs).headStart = some place := by
  induction xs using List.reverseRecOn with
  | nil => exact .inl rfl
  | append_singleton xs x ih =>
    obtain ⟨x, next⟩ := x
    have hgrown : growAll (.fresh b) (xs ++ [(x, next)]) = (growAll (.fresh b) xs).grow x :=
      growAll_append _ _ _
    rw [hgrown]
    obtain hnone | ⟨xs₁, place, modifiers, next', xs₂, rfl, hsome⟩ := ih
    · cases x with
      | group g => exact .inl hnone
      | word place modifiers =>
        exact .inr ⟨xs, place, modifiers, next, [], rfl, by simp [Pending.grow, Pending.keyword, hnone]⟩
      | skip => exact .inl hnone
    · refine .inr ⟨xs₁, place, modifiers, next', xs₂ ++ [(x, next)], by simp, ?_⟩
      cases x with
      | group g => exact hsome
      | word place' modifiers' => simp [Pending.grow, Pending.keyword, hsome]
      | skip => exact hsome

/-- The walk up to one of its turns. -/
theorem exists_turn_at (h : l.turnsFrom source close i = us ++ u :: vs) :
    ∃ j t, TokenSequence.Path l source close i us j ∧ j < close ∧ l.tokens[j]? = some t ∧
      l.turn source close j t = some u ∧ l.turnsFrom source close j = u :: vs ∧
      l.turnsFrom source close (max u.next (j + 1)) = vs := by
  obtain ⟨j, hpath, hj⟩ := exists_path h
  obtain ⟨t, hlt, ht, hu, hrest⟩ := exists_turn hj
  exact ⟨j, t, hpath, hlt, ht, hu, hj, hrest⟩

/-- A place among the turns of a method. -/
theorem seat_of_path {us₁ us₂ : List Turn} {xs₁ xs₂ : List (Growth × Nat)} {head : MethodHead} {next j b' : Nat}
    (hm : m = (growAll (.fresh b') (xs₁ ++ xs₂)).method docs head) (hms : playback docs (.fresh b) us₁ = ms)
    (hpend : pendingAfter (.fresh b) us₁ = .fresh b') (hms' : playback docs (.fresh head.stop) us₂ = ms')
    (hpath : TokenSequence.Path l source close i (us₁ ++ growTurns xs₁) j) (hlt : j < close)
    (hrest : l.turnsFrom source close j = growTurns xs₂ ++ .method head next :: us₂) :
    Seat l source docs close i b ms m ms' (us₁ ++ growTurns xs₁) j b' xs₁ xs₂ head := by
  refine ⟨hpath, hlt, ?_, ?_, ⟨next, us₂, hrest, hms'⟩, hm⟩
  · rw [playback_append, hms, hpend, ← List.append_nil (growTurns xs₁), playback_growTurns]
    exact List.append_nil ms
  · rw [pendingAfter_append, hpend, pendingAfter_growTurns]

/-- One of the groups that are taken in. -/
theorem exists_growth {A B : List AttributeGroup} {g : AttributeGroup} (h : groupsIn xs = A ++ g :: B) :
    ∃ xs₁ next xs₂, xs = xs₁ ++ (.group g, next) :: xs₂ ∧ groupsIn xs₁ = A ∧ groupsIn xs₂ = B := by
  obtain ⟨xs₁, xs', rfl, hA, hrest⟩ := List.filterMap_eq_append_iff.mp h
  obtain ⟨ys, ⟨x, next⟩, xs₂, rfl, hys, hx, hB⟩ := List.filterMap_eq_cons_iff.mp hrest
  obtain rfl : x = .group g := by
    cases x with
    | group g' => simpa using hx
    | word place modifiers => simp at hx
    | skip => simp at hx
  have hnone : groupsIn ys = [] := List.filterMap_eq_nil_iff.mpr hys
  exact ⟨xs₁ ++ ys, next, xs₂, by simp, by rw [groupsIn_append, hnone, List.append_nil]; exact hA, hB⟩

/-- A method that a walk finds has a place for new groups. -/
theorem exists_seat (q : AttributeGroup → Bool) (hn : l.Nested)
    (h : playback docs (.fresh b) (l.turnsFrom source close i) = ms ++ m :: ms') :
    ∃ us k b' xs₁ xs₂ head, Seat l source docs close i b ms m ms' us k b' xs₁ xs₂ head ∧
      Point l source (anchorsBy q m) m.headStart k ∧ (anchorsBy q m ≠ [] → groupsIn xs₁ ≠ []) ∧
      ∀ g ∈ groupsIn xs₂, q g = false := by
  obtain ⟨us₁, xs, head, next, us₂, b', hus, hm, hms, hpend, hms'⟩ := exists_turns h
  have hattributes : m.attributes = groupsIn xs := by
    rw [hm]
    exact attributes_growAll _ _
  have hhead' : m.headStart = ((growAll (.fresh b') xs).headStart).getD head.place := by
    rw [hm]
    rfl
  -- a place among the turns of the method
  have hseat : ∀ xs₁ xs₂ j, xs = xs₁ ++ xs₂ →
      TokenSequence.Path l source close i (us₁ ++ growTurns xs₁) j → j < close →
      l.turnsFrom source close j = growTurns xs₂ ++ .method head next :: us₂ →
      Seat l source docs close i b ms m ms' (us₁ ++ growTurns xs₁) j b' xs₁ xs₂ head := by
    rintro xs₁ xs₂ j rfl
    exact seat_of_path hm hms hpend hms'
  -- the walk up to some turns of the method, and the next one
  have hwalk : ∀ xs₁ u us, growTurns xs ++ Turn.method head next :: us₂ = growTurns xs₁ ++ u :: us →
      ∃ j t, TokenSequence.Path l source close i (us₁ ++ growTurns xs₁) j ∧ j < close ∧
        l.tokens[j]? = some t ∧ l.turn source close j t = some u ∧
        l.turnsFrom source close j = u :: us ∧ l.turnsFrom source close (max u.next (j + 1)) = us := by
    intro xs₁ u us hturns
    rw [hturns, ← List.append_assoc] at hus
    exact exists_turn_at hus
  obtain ⟨hnone, hanchors⟩ | ⟨A, g, B, hsplit, hanchor, hB⟩ := exists_anchor q m
  · rw [hattributes] at hnone
    -- the method has no groups, so new ones go before its first word
    obtain hhead | ⟨xs₁, place, modifiers, nx, xs₂, rfl, hhead⟩ := headStart_growAll b' xs
    · obtain ⟨j, t, hpath, hlt, ht, hu, hj, -⟩ := hwalk xs _ us₂ rfl
      refine ⟨_, j, b', xs, [], head, hseat xs [] j (List.append_nil xs).symm hpath hlt hj, ?_,
        fun hne => absurd hanchors hne, by simp [groupsIn]⟩
      obtain ⟨g, -, he⟩ | ⟨hname, ⟨_, _, he⟩ | ⟨head', nx, hplace, he⟩⟩ | ⟨_, he⟩ | ⟨_, _, he⟩ :=
        turn_cases hu <;> cases he
      exact .above hanchors ht hname (by rw [hhead', hhead, ← hplace]; rfl)
    · obtain ⟨j, t, hpath, hlt, ht, hu, hj, -⟩ := hwalk xs₁ (.grow (.word place modifiers) nx)
        (growTurns xs₂ ++ .method head next :: us₂) (by simp [growTurns])
      refine ⟨_, j, b', xs₁, (.word place modifiers, nx) :: xs₂, head,
        hseat _ _ j rfl hpath hlt hj, ?_, fun hne => absurd hanchors hne, ?_⟩
      · obtain ⟨g, -, he⟩ | ⟨hname, ⟨_, _, he⟩ | ⟨_, _, -, he⟩⟩ | ⟨_, he⟩ | ⟨_, _, he⟩ :=
          turn_cases hu <;> cases he
        exact .above hanchors ht hname (by rw [hhead', hhead]; rfl)
      · rw [groupsIn_append] at hnone
        rw [(List.append_eq_nil_iff.mp hnone).2]
        simp
  · rw [hattributes] at hsplit
    obtain ⟨xs₁, nx, xs₂, rfl, -, hxs₂⟩ := exists_growth hsplit
    obtain ⟨j, t, hpath, hlt, ht, hu, -, hj⟩ := hwalk xs₁ (.grow (.group g) nx)
      (growTurns xs₂ ++ .method head next :: us₂) (by simp [growTurns])
    obtain ⟨g', hg, he⟩ | ⟨-, ⟨_, _, he⟩ | ⟨_, _, -, he⟩⟩ | ⟨_, he⟩ | ⟨_, _, he⟩ := turn_cases hu <;>
      cases he
    obtain ⟨c, hat⟩ := exists_groupAt hn hg
    have hnext : max g.next (j + 1) = c + 1 := by
      have := hat.lt
      rw [hat.next]
      omega
    rw [Turn.next, hnext] at hj
    have hlt' : c + 1 < close := by
      cases xs₂ with
      | nil => exact (exists_turn hj).choose_spec.1
      | cons x xs₂ => exact (exists_turn hj).choose_spec.1
    refine ⟨us₁ ++ growTurns (xs₁ ++ [(.group g, g.next)]), c + 1, b', _, xs₂, head,
      hseat _ _ _ (by simp) ?_ hlt' hj, .below hanchor hat, fun _ => by simp [groupsIn], ?_⟩
    · rw [growTurns_append, ← List.append_assoc]
      refine hpath.append (.cons hlt ht hu ?_)
      rw [Turn.next, hnext]
      exact .nil _
    · rw [hxs₂]
      exact hB

/-- A method that a walk finds has a place before each of its groups. -/
theorem exists_seat_group {A B : List AttributeGroup} {g : AttributeGroup} (hn : l.Nested)
    (h : playback docs (.fresh b) (l.turnsFrom source close i) = ms ++ m :: ms')
    (hg : m.attributes = A ++ g :: B) :
    ∃ us o c b' xs₁ xs₂ head, Seat l source docs close i b ms m ms' us o b' xs₁ (turnsAt [g] ++ xs₂) head ∧
      groupsIn xs₁ = A ∧ groupsIn xs₂ = B ∧ AttributeGroup.parse l source o = some g ∧
      GroupAt l source g o c ∧ c + 1 < close := by
  obtain ⟨us₁, xs, head, next, us₂, b', hus, hm, hms, hpend, hms'⟩ := exists_turns h
  have hattributes : groupsIn xs = A ++ g :: B := by
    have hall := attributes_growAll (.fresh b') xs
    rw [← hg, hm]
    exact hall.symm
  obtain ⟨xs₁, nx, xs₂, rfl, hA, hB⟩ := exists_growth hattributes
  rw [growTurns_append, List.append_assoc, ← List.append_assoc] at hus
  obtain ⟨o, t, hpath, hlt, ht, hu, ho, hrest⟩ := exists_turn_at hus
  obtain ⟨g', hparse, he⟩ | ⟨-, ⟨_, _, he⟩ | ⟨_, _, -, he⟩⟩ | ⟨_, he⟩ | ⟨_, _, he⟩ := turn_cases hu <;>
    cases he
  obtain ⟨c, hat⟩ := exists_groupAt hn hparse
  refine ⟨us₁ ++ growTurns xs₁, o, c, b', xs₁, xs₂, head, ?_, hA, hB, hparse, hat, ?_⟩
  · exact seat_of_path hm hms hpend hms' hpath hlt ho
  · have hnext : max g.next (o + 1) = c + 1 := by
      have := hat.lt
      rw [hat.next]
      omega
    rw [Turn.next, hnext] at hrest
    cases xs₂ with
    | nil => exact (exists_turn hrest).choose_spec.1
    | cons x xs₂ => exact (exists_turn hrest).choose_spec.1

/-! ## §4 Where methods start -/

/-- Where what is added begins, if it can begin a member. -/
def Growth.place : Growth → Option Nat
  | .group g => some g.span.start
  | .word place _ => some place
  | .skip => none

/-- Where what a turn takes in begins, if it can begin a member. -/
def Turn.place : Turn → Option Nat
  | .grow x _ => x.place
  | .reset _ _ => none
  | .method head _ => some head.place

/-- A member starts at the first thing that can begin it. -/
theorem start_grow (p : Pending) (x : Growth) : (p.grow x).start = p.start.or x.place := by
  cases x with
  | group g => cases hp : p.start <;> simp [Pending.grow, Pending.group, Growth.place, hp]
  | word place modifiers => cases hp : p.start <;> simp [Pending.grow, Pending.keyword, Growth.place, hp]
  | skip => exact Option.or_none.symm

theorem start_method (docs : Nat → Nat → Option Span) (p : Pending) (head : MethodHead) :
    some (p.method docs head).start = p.start.or (some head.place) := by
  cases hp : p.start <;> simp [Pending.method, hp]

theorem start_growAll_of_some {s : Nat} (h : p.start = some s) (xs : List (Growth × Nat)) :
    (growAll p xs).start = some s := by
  induction xs generalizing p with
  | nil => exact h
  | cons x xs ih => exact ih (by rw [start_grow, h, Option.some_or])

/-- A member that has groups or words has a start. -/
theorem start_growAll_eq_none {xs : List (Growth × Nat)} (h : (growAll p xs).start = none) :
    groupsIn xs = [] := by
  induction xs generalizing p with
  | nil => rfl
  | cons x xs ih =>
    obtain ⟨x, next⟩ := x
    have hrest : groupsIn xs = [] := ih h
    cases x with
    | group g =>
      have hsome : (p.grow (.group g)).start = some (p.start.getD g.span.start) := by
        rw [start_grow]
        cases p.start <;> rfl
      rw [show growAll p ((.group g, next) :: xs) = growAll (p.grow (.group g)) xs from rfl,
        start_growAll_of_some hsome] at h
      cases h
    | word place modifiers => exact hrest
    | skip => exact hrest

/-- A member without groups starts with its first word. -/
theorem start_eq_headStart {xs : List (Growth × Nat)} (hp : p.start = p.headStart) (h : groupsIn xs = []) :
    (growAll p xs).start = (growAll p xs).headStart := by
  induction xs generalizing p with
  | nil => exact hp
  | cons x xs ih =>
    obtain ⟨x, next⟩ := x
    cases x with
    | group g => simp [groupsIn] at h
    | word place modifiers => exact ih (by simp [Pending.grow, Pending.keyword, hp]) h
    | skip => exact ih hp h

/-- A method without groups starts with its first word. -/
theorem Seat.start_eq {us : List Turn} {b' : Nat} {xs₁ xs₂ : List (Growth × Nat)} {head : MethodHead}
    (h : Seat l source docs close i b ms m ms' us k b' xs₁ xs₂ head) (hnone : m.attributes = []) :
    m.start = m.headStart := by
  rw [h.attributes, ← groupsIn_append] at hnone
  rw [h.method]
  exact congrArg (·.getD head.place) (start_eq_headStart (p := .fresh b') rfl hnone)

/-- A turn takes in what begins at its token. -/
theorem place_of_turn (hn : l.Nested) (ht : l.tokens[i]? = some t) (hu : l.turn source close i t = some u) :
    ∀ s ∈ u.place, s = t.span.start := by
  intro s hs
  obtain ⟨g, hg, rfl⟩ | ⟨-, ⟨_, _, rfl⟩ | ⟨_, _, hplace, rfl⟩⟩ | ⟨_, rfl⟩ | ⟨_, _, rfl⟩ := turn_cases hu
  · obtain ⟨c, hat⟩ := exists_groupAt hn hg
    obtain ⟨v, hv, hstart⟩ := hat.covers.first
    obtain rfl := Option.some.inj (ht.symm.trans hv)
    obtain rfl := Option.some.inj hs
    exact hstart.symm
  · exact (Option.some.inj hs).symm
  · exact (Option.some.inj hs).symm.trans hplace
  · cases hs
  · cases hs

/-- The turns of a walk are taken at its tokens. -/
theorem exists_token_of_mem_turnsFrom (hu : u ∈ l.turnsFrom source close i) :
    ∃ j t, i ≤ j ∧ j < close ∧ l.tokens[j]? = some t ∧ l.turn source close j t = some u := by
  fun_induction turnsFrom l source close i with
  | case1 i hi hnone => cases hu
  | case2 i hi t ht hv => cases hu
  | case3 i hi t ht v hv ih =>
    obtain rfl | hu := List.mem_cons.mp hu
    · exact ⟨i, t, Nat.le_refl i, hi, ht, hv⟩
    · obtain ⟨j, w, hj, hrest⟩ := ih hu
      exact ⟨j, w, by omega, hrest⟩
  | case4 i hi => cases hu

/-- So are those of a part of it. -/
theorem TokenSequence.Path.exists_token (h : TokenSequence.Path l source close i us k) (hu : u ∈ us) :
    ∃ j t, i ≤ j ∧ j < k ∧ l.tokens[j]? = some t ∧ l.turn source close j t = some u := by
  induction h with
  | nil i => cases hu
  | @cons i j t v us lt token turn rest ih =>
    obtain rfl | hu := List.mem_cons.mp hu
    · exact ⟨i, t, Nat.le_refl i, by have := rest.le; omega, token, turn⟩
    · obtain ⟨j', w, hj, hrest⟩ := ih hu
      exact ⟨j', w, by omega, hrest⟩

/-- A method starts where the member did that was coming, or at something that was taken in. -/
theorem start_of_mem_playback (p : Pending) (hm : m ∈ playback docs p us) :
    m.start ∈ p.start ∨ ∃ u ∈ us, m.start ∈ u.place := by
  induction us generalizing p with
  | nil => cases hm
  | cons u us ih =>
    have hlater : ∀ q : Pending, (m.start ∈ q.start → m.start ∈ p.start ∨ m.start ∈ u.place) →
        m ∈ playback docs q us → m.start ∈ p.start ∨ ∃ v ∈ u :: us, m.start ∈ v.place := by
      intro q hq hmem
      obtain hstart | ⟨v, hv, hplace⟩ := ih q hmem
      · exact (hq hstart).imp_right fun hplace => ⟨u, by simp, hplace⟩
      · exact .inr ⟨v, List.mem_cons_of_mem _ hv, hplace⟩
    have hor : ∀ o o' : Option Nat, m.start ∈ o.or o' → m.start ∈ o ∨ m.start ∈ o' := by
      intro o o' h
      cases o with
      | none => exact .inr h
      | some s => exact .inl h
    cases u with
    | grow x next =>
      refine hlater _ (fun hstart => ?_) hm
      rw [start_grow] at hstart
      exact hor _ _ hstart
    | reset stop next => exact hlater (.fresh stop) (by simp [Pending.fresh]) hm
    | method head next =>
      obtain rfl | hm := List.mem_cons.mp hm
      · exact (hor _ _ (start_method _ p head).symm).imp_right fun hplace =>
          ⟨.method head next, List.mem_cons_self, hplace⟩
      · exact hlater (.fresh head.stop) (by simp [Pending.fresh]) hm

/-- So does the member that is coming after some turns. -/
theorem start_of_pendingAfter (us : List Turn) (p : Pending) :
    ∀ s ∈ (pendingAfter p us).start, s ∈ p.start ∨ ∃ u ∈ us, s ∈ u.place := by
  intro s hs
  induction us generalizing p with
  | nil => exact .inl hs
  | cons u us ih =>
    cases u with
    | grow x next =>
      obtain hstart | ⟨v, hv, hplace⟩ := ih _ hs
      · rw [start_grow] at hstart
        cases hp : p.start with
        | none =>
          rw [hp, Option.none_or] at hstart
          exact .inr ⟨_, List.mem_cons_self, hstart⟩
        | some s' =>
          rw [hp] at hstart
          exact .inl hstart
      · exact .inr ⟨v, List.mem_cons_of_mem _ hv, hplace⟩
    | reset stop next =>
      obtain hstart | ⟨v, hv, hplace⟩ := ih (.fresh stop) hs
      · cases hstart
      · exact .inr ⟨v, List.mem_cons_of_mem _ hv, hplace⟩
    | method head next =>
      obtain hstart | ⟨v, hv, hplace⟩ := ih (.fresh head.stop) hs
      · cases hstart
      · exact .inr ⟨v, List.mem_cons_of_mem _ hv, hplace⟩

/-- A method starts before the ones after it. -/
theorem starts_sorted (hl : tokenize source = .ok l) (p : Pending)
    (hp : ∀ s ∈ p.start, ∀ j t, i ≤ j → l.tokens[j]? = some t → s ≤ t.span.start) :
    (playback docs p (l.turnsFrom source close i)).Pairwise fun a b => a.start < b.start := by
  have hn := nested_of_tokenize hl
  fun_induction turnsFrom l source close i generalizing p with
  | case1 i hi hnone => exact .nil
  | case2 i hi t ht hu => exact .nil
  | case3 i hi t ht u hu ih =>
    have hplace := place_of_turn hn ht hu
    -- what is coming starts no later than this token
    have hhere : ∀ s ∈ p.start.or u.place, s ≤ t.span.start := by
      intro s hs
      cases hstart : p.start with
      | none =>
        rw [hstart] at hs
        exact Nat.le_of_eq (hplace s hs)
      | some s' =>
        rw [hstart] at hs
        obtain rfl := Option.some.inj hs
        exact hp s' (by rw [hstart]; rfl) i t (Nat.le_refl i) ht
    cases u with
    | grow x next =>
      refine ih _ fun s hs j v hj hv => ?_
      rw [start_grow] at hs
      have := hhere s hs
      have := start_lt hl ht hv (by omega)
      omega
    | reset stop next => exact ih (.fresh stop) (by simp [Pending.fresh])
    | method head next =>
      refine List.pairwise_cons.mpr ⟨fun b hb => ?_, ih (.fresh head.stop) (by simp [Pending.fresh])⟩
      have hle := hhere _ (start_method docs p head).symm
      obtain hstart | ⟨v, hv, hstart⟩ := start_of_mem_playback (.fresh head.stop) hb
      · simp [Pending.fresh] at hstart
      · obtain ⟨j, w, hj, -, hw, hturn⟩ := exists_token_of_mem_turnsFrom hv
        have := place_of_turn hn hw hturn _ hstart
        have := start_lt hl ht hw (by omega)
        omega
  | case4 i hi => exact .nil

end Crosslink.Source
