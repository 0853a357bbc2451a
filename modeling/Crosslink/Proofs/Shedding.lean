import Crosslink.Proofs.Granting
import Crosslink.Proofs.Trimming

/-!
# Tests that lose groups

When a group of attributes, or some of its attributes, are taken out of a test, the file of what is left has
as many tests, and the test at the same position has the groups that are left. It is still a test, if it is
named as one or marked as one, or if no documentation comment stands in it before its name. All other tests
have the links they had.

* §1 Where a method starts, and where its name stands.
* §2 `Remainder`, the groups that are left, and `Method.Lessened`, the method that has them.
* §3 `isTest_left`, whether the method is a test.
* §4 `exists_shed`, the file of what is left.
-/

namespace Crosslink.Source

open TokenSequence

variable {source out : Text} {l l' : TokenSequence} {P M Q : List Piece} {i o c k n w close : Nat}
  {xs xs₁ : List (Growth × Nat)} {head : MethodHead} {g : AttributeGroup} {gs gs' A B : List AttributeGroup}
  {m m' : Method} {us : List Turn} {next b' : Nat} {t : Token}

/-! ## §1 Where a method starts -/

/-- Where what is taken in for a member begins, `place` if nothing is. -/
def firstPlace (xs : List (Growth × Nat)) (place : Nat) : Nat := ((growAll (.fresh 0) xs).start).getD place

theorem start_growAll (p : Pending) (xs : List (Growth × Nat)) :
    (growAll p xs).start = p.start.or (growAll (.fresh 0) xs).start := by
  induction xs generalizing p with
  | nil => exact Option.or_none.symm
  | cons x xs ih =>
    have hstep : ∀ p : Pending, growAll p (x :: xs) = growAll (p.grow x.1) xs := fun _ => rfl
    rw [hstep, hstep, ih, ih (Pending.grow _ _), start_grow, start_grow, Option.or_assoc]
    rfl

theorem start_growAll_shift (xs : List (Growth × Nat)) (n w : Nat) :
    (growAll (.fresh 0) (xs.map fun x => (x.1.shift n w, x.2 + n))).start =
      (growAll (.fresh 0) xs).start.map (· + w) := by
  induction xs with
  | nil => rfl
  | cons x xs ih =>
    obtain ⟨x, next⟩ := x
    have hstep : ∀ (p : Pending) (x : Growth × Nat) xs, growAll p (x :: xs) = growAll (p.grow x.1) xs :=
      fun _ _ _ => rfl
    rw [List.map_cons, hstep, hstep, start_growAll, start_growAll (Pending.grow _ _), ih, start_grow,
      start_grow]
    cases x <;> simp [Growth.shift, Growth.place, Pending.fresh, AttributeGroup.shift, Span.shift]

theorem firstPlace_shift (xs : List (Growth × Nat)) (n w place : Nat) :
    firstPlace (xs.map fun x => (x.1.shift n w, x.2 + n)) (place + w) = firstPlace xs place + w := by
  rw [firstPlace, firstPlace, start_growAll_shift]
  cases (growAll (.fresh 0) xs).start <;> rfl

/-- The name of a method stands after its word `function`. -/
theorem exists_name_of_turn (h : l.turn source close i t = some (.method head next)) :
    ∃ j v, i < j ∧ l.tokens[j]? = some v ∧ head.nameSpan = v.span := by
  unfold turn at h
  repeat' split at h
  all_goals try cases Option.some.inj h
  unfold methodTurn at h
  split at h
  · cases h
  · rename_i name params hsig
    obtain ⟨body, -, hhead⟩ := Option.map_eq_some_iff.mp h
    obtain ⟨rfl, -⟩ := Turn.method.inj hhead
    unfold signature at hsig
    obtain ⟨v, hv, hsig⟩ := Option.bind_eq_some_iff.mp hsig
    obtain ⟨opener, -, hsig⟩ := Option.bind_eq_some_iff.mp hsig
    obtain ⟨q, -, hsig⟩ := Option.bind_eq_some_iff.mp hsig
    obtain ⟨rfl, -⟩ := Prod.mk.inj (Option.some.inj hsig)
    refine ⟨_, v, ?_, (Option.filter_eq_some_iff.mp hv).1, rfl⟩
    split <;> omega

/-- What is taken in for a method after a token begins there or later, and before the name of the method. -/
theorem firstPlace_bounds (hl : tokenize source = .ok l) (ht : l.tokens[i]? = some t)
    (h : l.turnsFrom source close i = growTurns xs ++ .method head next :: us) :
    t.span.start ≤ firstPlace xs head.place ∧ firstPlace xs head.place < head.nameSpan.start := by
  have hn := nested_of_tokenize hl
  obtain ⟨j, u, hpath, -, hu, hturn, -⟩ := exists_turn_at h
  have hij := hpath.le
  obtain ⟨k, v, hjk, hv, hname⟩ := exists_name_of_turn hturn
  have hplace : head.place = u.span.start := place_of_turn hn hu hturn _ rfl
  have hlt : u.span.start < head.nameSpan.start := by
    rw [hname]
    exact start_lt hl hu hv hjk
  have hti := start_le_of_le hl ht hu hij
  rw [firstPlace]
  cases hs : (growAll (.fresh 0) xs).start with
  | none => exact ⟨hplace ▸ hti, hplace ▸ hlt⟩
  | some s =>
    rw [← pendingAfter_growTurns] at hs
    obtain hfresh | ⟨x, hx, hs⟩ := start_of_pendingAfter (growTurns xs) (.fresh 0) s hs
    · cases hfresh
    · obtain ⟨q, v, hiq, hqj, hv, hturn'⟩ := hpath.exists_token hx
      rw [Option.getD_some, place_of_turn hn hv hturn' s hs]
      exact ⟨start_le_of_le hl ht hv hiq, (start_le_of_le hl hv hu hqj.le).trans_lt hlt⟩

/-! ## §2 The groups that are left -/

/-- Of a group, which takes up the tokens from `o` to `c`, the groups `gs'` are left when the pieces `M` are
taken out: none, and what stands before it is read alike, or one. -/
structure Remainder (g : AttributeGroup) (o c : Nat) (P M : List Piece) (l : TokenSequence) (out : Text)
    (l' : TokenSequence) (gs' : List AttributeGroup) : Prop where
  first : o ≤ countIn P
  last : countIn P + countIn M ≤ c + 1
  silent : Copied.Silent 0 o 0 l l'
  path : ∀ close, c + 1 < close + countIn M →
    TokenSequence.Path l' out close o (growTurns (turnsAt gs')) (c + 1 - countIn M)
  start : gs' = [] ∧ Reading.extent P ≤ g.span.start ∧ g.span.start ≤ Reading.extent P + Reading.extent M ∧
      (∀ d ∈ docsIn (Reading.extent P) M, g.span.start ≤ d.start) ∨
    ∃ g', gs' = [g'] ∧ g'.span.start = g.span.start ∧ g.span.start ≤ Reading.extent P

/-- A method of what is left of a source. -/
structure Method.Lessened (l l' : TokenSequence) (P M : List Piece) (m m' : Method) : Prop where
  name : m'.name = m.name
  modifiers : m'.modifiers = m.modifiers
  nameSpan : m.nameSpan = m'.nameSpan.shift (Reading.extent M)
  lt : m'.start < m'.nameSpan.start
  after : Reading.extent P ≤ m'.nameSpan.start
  start : m'.start = m.start ∧ m.start ≤ Reading.extent P ∨
    Reading.extent P ≤ m'.start ∧ Reading.extent P ≤ m.start ∧
      m.start ≤ Reading.extent P + Reading.extent M ∧
      ∀ d ∈ docsIn (Reading.extent P) M, m.start ≤ d.start
  doc : ∃ b, m.doc = l.docBetween b m.start ∧ m'.doc = l'.docBetween b m'.start

theorem start_of_growths {docs : Nat → Nat → Option Span} (b : Nat) (xs : List (Growth × Nat))
    (head : MethodHead) :
    ((growAll (.fresh b) (xs₁ ++ (turnsAt gs ++ xs))).method docs head).start =
      ((growAll (.fresh b) xs₁).start.or ((growAll (.fresh 0) (turnsAt gs)).start)).getD
        (firstPlace xs head.place) := by
  show ((growAll (.fresh b) (xs₁ ++ (turnsAt gs ++ xs))).start).getD head.place = _
  rw [growAll_append, growAll_append, start_growAll, start_growAll (growAll _ xs₁), firstPlace]
  cases ((growAll (.fresh b) xs₁).start.or (growAll (.fresh 0) (turnsAt gs)).start) <;> rfl

theorem start_turnsAt_single (b : Nat) (g : AttributeGroup) :
    (growAll (.fresh b) (turnsAt [g])).start = some g.span.start := start_growAll_group (.fresh b) g []

/-- Where the method starts that has lost a group. -/
theorem lessened_of_growths {docs docs' : Nat → Nat → Option Span} {head' : MethodHead}
    (hdocs : docs = l.docBetween) (hdocs' : docs' = l'.docBetween)
    (hleft : Remainder g o c P M l out l' gs')
    (hm : m = (growAll (.fresh b') (xs₁ ++ (turnsAt [g] ++
      xs.map fun x => (x.1.shift n (Reading.extent M), x.2 + n)))).method docs (head'.shift (Reading.extent M)))
    (hm' : m' = (growAll (.fresh b') (xs₁ ++ (turnsAt gs' ++ xs))).method docs' head')
    (hbefore : ∀ s ∈ (growAll (.fresh b') xs₁).start, s ≤ Reading.extent P)
    (hafter : Reading.extent P ≤ firstPlace xs head'.place)
    (hname : firstPlace xs head'.place < head'.nameSpan.start) : Method.Lessened l l' P M m m' := by
  have hstart : m.start = (growAll (.fresh b') xs₁).start.getD g.span.start := by
    rw [hm, start_of_growths, start_turnsAt_single]
    cases (growAll (.fresh b') xs₁).start <;> rfl
  -- it starts where it did, or with what comes after the group
  have hstarts : m'.start = m.start ∧ m.start ≤ Reading.extent P ∨ m'.start = firstPlace xs head'.place ∧
      Reading.extent P ≤ m.start ∧ m.start ≤ Reading.extent P + Reading.extent M ∧
      ∀ d ∈ docsIn (Reading.extent P) M, m.start ≤ d.start := by
    rw [hstart, hm', start_of_growths]
    cases hs : (growAll (.fresh b') xs₁).start with
    | some s => exact .inl ⟨rfl, hbefore s hs⟩
    | none =>
      obtain ⟨rfl, hlow, hhigh, hdocs⟩ | ⟨g', rfl, hsame, hle⟩ := hleft.start
      · exact .inr ⟨rfl, hlow, hhigh, hdocs⟩
      · rw [start_turnsAt_single]
        exact .inl ⟨hsame, hle⟩
  have hspan : m'.nameSpan = head'.nameSpan := by rw [hm']; rfl
  have hboundary : ∀ xs : List (Growth × Nat), (growAll (.fresh b') xs).boundary = b' := fun xs =>
    boundary_growAll (.fresh b') xs
  refine ⟨by rw [hm, hm']; rfl, ?_, by rw [hm, hm']; rfl, ?_, ?_, ?_, b', ?_, ?_⟩
  · rw [hm, hm']
    show (growAll _ _).modifiers = (growAll _ _).modifiers
    simp only [growAll_append]
    exact (modifiers_growAll_shift (by rw [modifiers_growAll_turnsAt, modifiers_growAll_turnsAt]) xs n _).symm
  · rw [hspan]
    omega
  · rw [hspan]
    omega
  · obtain h | ⟨h, hlow, hhigh, hdocs⟩ := hstarts
    · exact .inl h
    · exact .inr ⟨h ▸ hafter, hlow, hhigh, hdocs⟩
  · rw [hm]
    show docs (growAll _ _).boundary _ = _
    rw [hboundary, hdocs]
    rfl
  · rw [hm']
    show docs' (growAll _ _).boundary _ = _
    rw [hboundary, hdocs']
    rfl

variable {C₁ C₂ : List DeclaredClass} {d : DeclaredClass} {ms ms' : List Method} {block : Array Token}

/-- A group that is read from a token is one turn of the walk. -/
theorem path_of_parse {close : Nat} (h : AttributeGroup.parse l source o = some g) (ho : o < close)
    (hnext : o < g.next) : TokenSequence.Path l source close o (growTurns (turnsAt [g])) g.next := by
  obtain ⟨v, hv, hturn⟩ := turn_of_parse close h
  refine .cons ho hv hturn ?_
  rw [Turn.next, Nat.max_eq_left hnext]
  exact .nil _

/-- A member that begins before a token begins before all pieces from its own on. -/
theorem Seat.start_le_extent {docs : Nat → Nat → Option Span} {close k b : Nat} {us : List Turn}
    {xs₂ : List (Growth × Nat)} {R : List Piece}
    (h : Seat l source docs close k b ms m ms' us o b' xs₁ xs₂ head)
    (hl : tokenize source = .ok l) (hcut : cut source = P ++ R) (ho : o ≤ countIn P) :
    ∀ s ∈ (growAll (.fresh b') xs₁).start, s ≤ Reading.extent P := by
  intro s hs
  rw [← h.pending] at hs
  obtain hfresh | ⟨x, hx, hs⟩ := start_of_pendingAfter us (.fresh _) s hs
  · cases hfresh
  · obtain ⟨q, y, -, hq, hy, hturn⟩ := h.path.exists_token hx
    rw [place_of_turn (nested_of_tokenize hl) hy hturn s hs]
    have := (lt_countIn_iff hl hcut hy).mp (by omega)
    have := token_lt hl hy
    omega

/-- When pieces of a group of a method are taken out, the classes of what is left are those of the source, but
for the group. -/
theorem exists_classes_lessened (hl : tokenize source = .ok l) (hl' : tokenize out = .ok l')
    (hcut : cut source = P ++ (M ++ Q)) (hcut' : cut out = P ++ Q)
    (hins : Inserted (countIn P) (countIn M) block (P.flatMap Piece.text) (M.flatMap Piece.text) l' l)
    (hclasses : l.classes source = C₁ ++ d :: C₂) (hmethods : d.methods = ms ++ m :: ms')
    (hgroups : m.attributes = A ++ g :: B) (hat : GroupAt l source g o c)
    (hrem : Remainder g o c P M l out l' gs') :
    ∃ C₁' d' C₂' ms₁ m₁ ms₂ B', l'.classes out = C₁' ++ d' :: C₂' ∧
      List.Forall₂ (DeclaredClass.Again out source) C₁' C₁ ∧
      List.Forall₂ (DeclaredClass.Again out source) C₂' C₂ ∧
      d'.name = d.name ∧ d'.methods = ms₁ ++ m₁ :: ms₂ ∧
      List.Forall₂ (Method.Again out source) ms₁ ms ∧ List.Forall₂ (Method.Again out source) ms₂ ms' ∧
      Method.Lessened l l' P M m m₁ ∧ m₁.attributes = A ++ (gs' ++ B') ∧
      B = B'.map (AttributeGroup.shift (countIn M) (Reading.extent M)) ∧ m.start ≤ g.span.start ∧
      ∃ u, l.tokens[c + 1]? = some u ∧ u.span.start < m.nameSpan.start := by
  have hn := nested_of_tokenize hl
  rw [classes_eq] at hclasses
  obtain ⟨Hs₁, Hs, hheaders, rfl, hHs⟩ := List.map_eq_append_iff.mp hclasses
  obtain ⟨H, Hs₂, rfl, rfl, rfl⟩ := List.map_eq_cons_iff.mp hHs
  have hplay := hmethods
  rw [ClassHeader.read, methodsFrom_eq] at hplay
  obtain ⟨us, o', c', b', xs₁, xs₂, head, hseat, hA, hB, hparse, hat', hclose⟩ :=
    exists_seat_group hn hplay hgroups
  obtain ⟨rfl, rfl⟩ := hat.covers.eq hl hat'.covers
  have hopens : Copied.Ends o 0 l := fun v hv => by
    have hkind : v.kind = .attrOpen := by
      have hsome := hat.kind
      rw [kindAt, show l.tokens[o]? = some v from hv] at hsome
      exact Option.some.inj hsome
    exact ⟨hkind, text_of_attrOpen hl hv hkind⟩
  have hfirst := hrem.first
  have hlast := hrem.last
  have hlt := hat.lt
  have hrevised := revised_of_inserted (y := c + 1 - countIn M) hl' hl hcut' hcut hins hfirst (by omega) hopens
  have hsource : source = P.flatMap Piece.text ++ (M.flatMap Piece.text ++ Q.flatMap Piece.text) := by
    rw [← List.flatMap_append, ← List.flatMap_append, ← hcut, cut_flatten]
  have hout : out = P.flatMap Piece.text ++ Q.flatMap Piece.text := by
    rw [← List.flatMap_append, ← hcut', cut_flatten]
  have hback := hins.copied_back (b := Q.flatMap Piece.text)
  rw [← hsource, ← hout] at hback
  have hpath := path_of_parse hparse (show o < H.close by omega) (by rw [hat.next]; omega)
  rw [hat.next] at hpath
  have hsplit : c + 1 - countIn M + countIn M = c + 1 := by omega
  obtain ⟨C₁', d', C₂', ms₁, ms₂, xs, head', hclasses', hC₁, hC₂, hname, hmethods', hms₁, hms₂, rfl, rfl⟩ :=
    exists_classes_left hrevised hback hrem.silent hheaders hfirst (by omega) (by omega) hseat
      (hsplit.symm ▸ hpath) (hrem.path (H.close - countIn M) (by omega))
  -- what comes after the group
  have hstands := (stands_of_mem hn (hheaders ▸ show H ∈ Hs₁ ++ H :: Hs₂ by simp)).2
  have hsize := hn.lt_size hstands.partner
  obtain ⟨u, hu⟩ : ∃ u, l.tokens[c + 1]? = some u := ⟨_, Array.getElem?_eq_getElem (by omega)⟩
  obtain ⟨next, us₂, hrest, -⟩ := hseat.rest
  rw [hpath.turnsFrom_eq, growTurns_append, List.append_assoc] at hrest
  obtain ⟨hlow, hhigh⟩ := firstPlace_bounds hl hu (List.append_cancel_left hrest)
  rw [MethodHead.shift, firstPlace_shift] at hlow hhigh
  dsimp only [Span.shift] at hlow hhigh
  have hplace : Reading.extent P + Reading.extent M ≤ u.span.start := by
    have hcut₁ : cut source = (P ++ M) ++ Q := by rw [hcut, List.append_assoc]
    rw [← extent_append]
    exact (countIn_le_iff hl hcut₁ hu).mp (by rwa [countIn_append])
  have hbefore := hseat.start_le_extent hl hcut hfirst
  have hless := lessened_of_growths (n := countIn M) rfl rfl hrem hseat.method rfl hbefore (by omega) (by omega)
  refine ⟨C₁', d', C₂', ms₁, _, ms₂, groupsIn xs, hclasses', hC₁, hC₂, hname, hmethods', hms₁, hms₂, hless, ?_,
    ?_, ?_, u, hu, ?_⟩
  · show (growAll _ _).attributes = _
    rw [attributes_growAll, groupsIn_append, groupsIn_append, groupsIn_turnsAt, hA]
    rfl
  · rw [← hB, groupsIn_shift]
  · obtain ⟨y, hy, hstart⟩ := hat.covers.first
    have hstarts := hseat.start_le hl hy
    rw [hseat.method, start_of_growths, start_turnsAt_single]
    cases hs : (growAll (.fresh b') xs₁).start with
    | none => exact Nat.le_refl _
    | some s => exact hstart ▸ hstarts s hs
  · rw [hless.nameSpan]
    exact Nat.lt_of_le_of_lt hlow hhigh

/-! ## §3 Whether the method is a test -/

/-- The last documentation comment before a place that all later ones reach beyond. -/
theorem docBetween_of_early {D E : List Span} {place s : Nat} (hdocs : l.docs = D ++ E)
    (hD : ∀ d ∈ D, d.stop ≤ place) (hE : ∀ d ∈ E, s < d.stop) (hs : place ≤ s) (b : Nat) :
    l.docBetween b s = D.reverse.find? fun d => b ≤ d.start := by
  have hnone : E.reverse.find? (fun d => b ≤ d.start && d.stop ≤ s) = none := by
    refine List.find?_eq_none.mpr fun d hd => ?_
    have := hE d (List.mem_reverse.mp hd)
    simp only [Bool.and_eq_true, decide_eq_true_eq]
    omega
  rw [docBetween, hdocs, List.reverse_append, List.find?_append, hnone, Option.none_or]
  refine List.find?_congr fun d hd => ?_
  have := hD d (List.mem_reverse.mp hd)
  rw [decide_eq_true (show d.stop ≤ s by omega), Bool.and_true]

/-- The documentation comments of a source and of what is left of it. -/
theorem docs_left (hl : tokenize source = .ok l) (hl' : tokenize out = .ok l')
    (hcut : cut source = P ++ (M ++ Q))
    (hcut' : cut out = P ++ Q) :
    l.docs = docsIn 0 P ++ (docsIn (Reading.extent P) M ++
        (docsIn (Reading.extent P) Q).map (Span.shift (Reading.extent M))) ∧
      l'.docs = docsIn 0 P ++ docsIn (Reading.extent P) Q := by
  rw [(bare_of_tokenize hl).2, (bare_of_tokenize hl').2, hcut, hcut', docsIn_append, docsIn_append,
    docsIn_append, Nat.zero_add, docsIn_shift]
  exact ⟨rfl, rfl⟩

/-- When no documentation comment stands in a method before its name, it keeps the one that it has. -/
theorem Method.Lessened.doc_text (h : Method.Lessened l l' P M m m') (hl : tokenize source = .ok l)
    (hl' : tokenize out = .ok l') (hcut : cut source = P ++ (M ++ Q)) (hcut' : cut out = P ++ Q)
    (hnone : ∀ d ∈ l.docs, m.start ≤ d.start → m.nameSpan.start ≤ d.start) :
    m'.doc.map (Span.slice · out) = m.doc.map (Span.slice · source) := by
  obtain ⟨b, hdoc, hdoc'⟩ := h.doc
  rw [hdoc, hdoc']
  have hlt := h.lt
  obtain ⟨hsame, hle⟩ | ⟨hplace, hplace', hle, hM⟩ := h.start
  · obtain ⟨hdocs, hslice⟩ := (docsMoved hl' hl hcut' hcut).before b m'.start (hsame ▸ hle)
    rw [← hsame, hdocs]
    exact Option.map_congr fun d hd => (hslice d hd).symm
  · obtain ⟨hdocs, hdocs'⟩ := docs_left hl hl' hcut hcut'
    have hD : ∀ d ∈ docsIn 0 P, d.stop ≤ Reading.extent P := fun d hd => by
      simpa using (bounds_of_mem_docsIn hd).2.2
    have hspan : m.nameSpan.start = m'.nameSpan.start + Reading.extent M := by rw [h.nameSpan]; rfl
    rw [docBetween_of_early hdocs hD (fun d hd => ?_) hplace',
      docBetween_of_early hdocs' hD (fun d hd => ?_) hplace]
    · refine Option.map_congr fun d hd => ?_
      have hstop := hD d (List.mem_reverse.mp (List.mem_of_find?_eq_some hd))
      have hslice := slice_before (m := M.flatMap Piece.text) (y := Q.flatMap Piece.text) hstop
      rw [← List.flatMap_append, ← List.flatMap_append, ← List.flatMap_append, ← hcut, ← hcut', cut_flatten,
        cut_flatten] at hslice
      exact hslice.symm
    · -- what is left of the later ones stands after the name
      have hmem : d.shift (Reading.extent M) ∈ l.docs := by
        rw [hdocs]
        exact List.mem_append_right _ (List.mem_append_right _ (List.mem_map_of_mem hd))
      have hlow := (bounds_of_mem_docsIn hd).1
      have hlate := hnone _ hmem (by dsimp only [Span.shift]; omega)
      have := doc_lt hl hmem
      dsimp only [Span.shift] at hlate this
      omega
    · have hmem : d ∈ l.docs := by
        rw [hdocs]
        exact List.mem_append_right _ hd
      have := doc_lt hl hmem
      obtain hd | hd := List.mem_append.mp hd
      · have := hM d hd
        omega
      · obtain ⟨e, he, rfl⟩ := List.mem_map.mp hd
        have := (bounds_of_mem_docsIn he).1
        dsimp only [Span.shift] at *
        omega

end Crosslink.Source

namespace Crosslink.AttributeList

open Source Source.TokenSequence

variable {source out : Text} {l l' : TokenSequence} {P M Q : List Piece} {m m' : Method}
  {A B B' gs gs' : List AttributeGroup} {g : AttributeGroup}

/-- A method is a test by its name or by an attribute, or no documentation comment stands in it before its
name. -/
def MarkedClear (source : Text) (m : Method) : Prop :=
  ("test" : Text).isPrefixOf m.name = true ∨ m.attributes.any (·.has testName) = true ∨
    ∀ l, tokenize source = .ok l → ∀ d ∈ l.docs, m.start ≤ d.start → m.nameSpan.start ≤ d.start

/-- A test that has lost groups which do not mark it is still a test, and marked as it was. -/
theorem isTest_lessened (h : Method.Lessened l l' P M m m') (hl : tokenize source = .ok l)
    (hl' : tokenize out = .ok l') (hcut : cut source = P ++ (M ++ Q)) (hcut' : cut out = P ++ Q)
    (hhas : m'.attributes.any (·.has testName) = m.attributes.any (·.has testName))
    (hmarked : MarkedClear source m) (htest : isTest source m = true) :
    isTest out m' = true ∧ MarkedClear out m' := by
  have hlt := h.lt
  have hspan : m.nameSpan.start = m'.nameSpan.start + Reading.extent M := by rw [h.nameSpan]; rfl
  have hpublic : m'.isPublic = m.isPublic ∧ m'.isAbstract = m.isAbstract := by
    rw [Method.isPublic, Method.isPublic, Method.isAbstract, Method.isAbstract, h.modifiers]
    exact ⟨rfl, rfl⟩
  rw [isTest] at htest ⊢
  rw [hpublic.1, hpublic.2, hhas, h.name]
  obtain hname | hattribute | hnone := hmarked
  · refine ⟨?_, .inl (by rw [h.name]; exact hname)⟩
    rw [hname, Bool.true_or, Bool.true_or] at htest ⊢
    exact htest
  · refine ⟨?_, .inr (.inl (hhas.trans hattribute))⟩
    rw [hattribute, Bool.or_true, Bool.true_or] at htest ⊢
    exact htest
  · have hdoc : (m'.doc.any fun d => Text.contains "@test" (d.slice out)) =
        m.doc.any fun d => Text.contains "@test" (d.slice source) := by
      have := congrArg (Option.any (Text.contains "@test")) (h.doc_text hl hl' hcut hcut' (hnone l hl))
      rwa [Option.any_map, Option.any_map] at this
    refine ⟨by rw [hdoc]; exact htest, .inr (.inr fun l₂ hl₂ d hd hlow => ?_)⟩
    obtain rfl := Except.ok.inj (hl₂.symm.trans hl')
    obtain ⟨hdocs, hdocs'⟩ := docs_left hl hl₂ hcut hcut'
    rw [hdocs'] at hd
    obtain hd | hd := List.mem_append.mp hd
    · have hmem : d ∈ l.docs := by
        rw [hdocs]
        exact List.mem_append_left _ hd
      have hstop : d.stop ≤ Reading.extent P := by simpa using (bounds_of_mem_docsIn hd).2.2
      have := doc_lt hl hmem
      obtain ⟨hsame, -⟩ | ⟨hplace, -⟩ := h.start
      · have := hnone l hl d hmem (by omega)
        omega
      · omega
    · have hmem : d.shift (Reading.extent M) ∈ l.docs := by
        rw [hdocs]
        exact List.mem_append_right _ (List.mem_append_right _ (List.mem_map_of_mem hd))
      have hafter := (bounds_of_mem_docsIn hd).1
      have hlate := hnone l hl _ hmem (by
        dsimp only [Span.shift]
        obtain ⟨hsame, -⟩ | ⟨-, -, hle, -⟩ := h.start <;> omega)
      dsimp only [Span.shift] at hlate
      omega

/-! ## §4 The file of what is left -/

variable {imports : Imports} {file file' : File} {i o c : Nat} {t t' : Test}

/-- The file of an edited source, in which no test but one has other links. -/
structure Pruned (file : File) (i : Nat) (out : Text) (file' : File) (t' : Test) : Prop where
  read : File.read out = .ok file'
  imports : file'.imports = file.imports
  confined : Confined i (file.tests.map Test.case) (file'.tests.map Test.case)
  test : file'.tests[i]? = some t'

namespace Pruned

theorem refl (hread : File.read source = .ok file) (ht : file.tests[i]? = some t) : Pruned file i source file t :=
  ⟨hread, rfl, .refl _ _, ht⟩

theorem trans {file'' : File} {t'' : Test} {out' : Text} (h : Pruned file i out file' t')
    (h' : Pruned file' i out' file'' t'') : Pruned file i out' file'' t'' where
  read := h'.read
  imports := h'.imports.trans h.imports
  confined := h.confined.trans h'.confined
  test := h'.test

theorem length (h : Pruned file i out file' t') : file'.tests.length = file.tests.length := by
  simpa using h.confined.length

theorem others (h : Pruned file i out file' t') {j : Nat} (hj : j ≠ i) :
    (file'.tests[j]?).map (·.case.links) = (file.tests[j]?).map (·.case.links) := by
  simpa [Function.comp_def] using h.confined.others j hj

end Pruned

/-- What an edit of a test method requires, so that what is left of it can be edited again. -/
structure Editable (source : Text) (m : Method) : Prop where
  clear : ClearBetween source m.start m.nameSpan.start
  marked : MarkedClear source m

variable {block : Array Token}

/-- No declaration reaches into what is left of a method before its name. -/
theorem clearBetween_lessened (h : Method.Lessened l l' P M m m') (hl : tokenize source = .ok l)
    (hl' : tokenize out = .ok l') (hcut' : cut out = P ++ Q)
    (hins : Inserted (countIn P) (countIn M) block (P.flatMap Piece.text) (M.flatMap Piece.text) l' l)
    (hu : Unbraced l (countIn P) (countIn M)) (hflush : Flush l' l (countIn P))
    (huncrossed : ∀ q, countIn P ≤ q → q ≤ countIn P + countIn M → Uncrossed l q)
    (hclear : ClearBetween source m.start m.nameSpan.start) :
    ClearBetween out m'.start m'.nameSpan.start := by
  intro l₂ q v hl₂ hv hlow hhigh
  obtain rfl := Except.ok.inj (hl₂.symm.trans hl')
  have hlt := h.lt
  have hspan : m.nameSpan.start = m'.nameSpan.start + Reading.extent M := by rw [h.nameSpan]; rfl
  refine uncrossed_left huncrossed hins hu hflush hl₂ ?_
  by_cases hq : q < countIn P
  · rw [lift_of_lt hq]
    have hsame := (hins.copied_before (b := [])).token q (Nat.zero_le q) hq
    rw [Nat.add_zero, hv, Option.map_some] at hsame
    have hstart : (v.carried (lift (countIn P) (countIn M)) (fun _ => Span.shift 0) q).span.start =
        v.span.start := rfl
    have hstop := (lt_countIn_iff hl₂ hcut' hv).mp hq
    have := token_lt hl₂ hv
    refine hclear l q _ hl hsame ?_ (by omega)
    obtain ⟨hsame, -⟩ | ⟨hplace, -⟩ := h.start <;> omega
  · rw [lift_of_le (by omega)]
    have hsame := (hins.copied_after (b := [])).token q (by omega) (Array.getElem?_eq_some_iff.mp hv).1
    rw [hv, Option.map_some] at hsame
    have hstart : (v.carried (lift (countIn P) (countIn M))
        (fun _ => Span.shift (Text.width (M.flatMap Piece.text))) q).span.start =
      v.span.start + Reading.extent M := rfl
    have hplace := (countIn_le_iff hl₂ hcut' hv).mp (Nat.le_of_not_lt hq)
    refine hclear l _ _ hl hsame ?_ (by omega)
    obtain ⟨hsame, -⟩ | ⟨-, -, hle, -⟩ := h.start <;> omega

/-- Nothing reaches across the tokens of a group of an editable method. -/
theorem uncrossed_of_clear {q : Nat} (hclear : ClearBetween source m.start m.nameSpan.start)
    (hl : tokenize source = .ok l) (hat : GroupAt l source g o c) (hstart : m.start ≤ g.span.start)
    (hnext : ∃ u, l.tokens[c + 1]? = some u ∧ u.span.start < m.nameSpan.start) (hlow : o ≤ q)
    (hhigh : q ≤ c + 1) :
    Uncrossed l q := by
  obtain ⟨u, hu, hustart⟩ := hat.covers.first
  obtain ⟨v, hv, hvname⟩ := hnext
  obtain ⟨w, hw⟩ : ∃ w, l.tokens[q]? = some w :=
    ⟨_, Array.getElem?_eq_getElem (by have := (Array.getElem?_eq_some_iff.mp hv).1; omega)⟩
  have := start_le_of_le hl hu hw hlow
  have := start_le_of_le hl hw hv hhigh
  exact hclear l q w hl hw (by omega) (by omega)

/-- Pieces of a group of a test can be taken out when what is left of the group marks the test as it did. -/
theorem exists_shed (hread : File.read source = .ok file) (ht : file.tests[i]? = some t)
    (heditable : Editable source t.method) (hgroups : t.method.attributes = A ++ g :: B)
    (hl : tokenize source = .ok l) (hat : GroupAt l source g o c) (hex : Excision source l P M Q)
    (hl' : tokenize out = .ok l') (hout : out = (P ++ Q).flatMap Piece.text)
    (hins : Inserted (countIn P) (countIn M) block (P.flatMap Piece.text) (M.flatMap Piece.text) l' l)
    (hflush : Flush l' l (countIn P)) (hrem : Remainder g o c P M l out l' gs')
    (htest : gs'.any (·.has testName) = g.has testName) :
    ∃ file' t' B', Pruned file i out file' t' ∧ Editable out t'.method ∧
      t'.method.attributes = A ++ (gs' ++ B') ∧
      B = B'.map (AttributeGroup.shift (countIn M) (Reading.extent M)) := by
  obtain ⟨l₂, hl₂, rfl⟩ := exists_read hread
  obtain rfl := Except.ok.inj (hl.symm.trans hl₂)
  obtain ⟨C₁, d, C₂, ms, m, ms', hclasses, hmethods, htest₀, rfl, rfl⟩ := exists_method ht
  replace hgroups : m.attributes = A ++ g :: B := hgroups
  replace heditable : Editable source m := heditable
  have hcut' : Source.cut out = P ++ Q := hout ▸ hex.without
  obtain ⟨C₁', d', C₂', ms₁, m', ms₂, B', hclasses', hC₁, hC₂, hname, hmethods', hms, hms', hless, hattributes,
    hB, hstart, hnext⟩ := exists_classes_lessened hl hl' hex.cut hcut' hins hclasses hmethods hgroups hat hrem
  have hfirst := hrem.first
  have hlast := hrem.last
  have hspan : m.nameSpan.start = m'.nameSpan.start + Reading.extent M := by rw [hless.nameSpan]; rfl
  have huncrossed : ∀ q, countIn P ≤ q → q ≤ countIn P + countIn M → Uncrossed l q := fun q hq hq' =>
    uncrossed_of_clear heditable.clear hl hat hstart hnext (by omega) (by omega)
  have himports := ofTokens_left huncrossed hins hex.unbraced hflush hl'
  have hhas : m'.attributes.any (·.has testName) = m.attributes.any (·.has testName) := by
    rw [hattributes, hgroups, hB]
    simp only [List.any_append, List.any_cons, htest, List.any_map]
    refine congrArg (_ || ·) (congrArg (_ || ·) ?_)
    exact congrArg (List.any B') (funext fun g => (has_shift _ _ g testName).symm)
  obtain ⟨htest', hmarked'⟩ := isTest_lessened hless hl hl' hex.cut hcut' hhas heditable.marked htest₀
  -- what is left is found again in the source
  have hconfined := (confined_around hmethods' htest' hmethods htest₀ hname.symm hC₁ hC₂ hms hms'
    hless.name.symm (Imports.ofTokens l)).symm
  have hat' : ((C₁' ++ d' :: C₂').flatMap (testsIn out (Imports.ofTokens l)))[_]? = some _ :=
    getElem?_tests hmethods' htest'
  rw [← length_tests_again hC₁ (Imports.ofTokens l) (Imports.ofTokens l), ← length_filter_again hms]
    at hconfined hat'
  rw [← hclasses, ← hclasses'] at hconfined
  rw [← hclasses'] at hat'
  have hread' := read_eq hl'
  rw [← himports] at hread'
  exact ⟨_, _, B', ⟨hread', rfl, hconfined, hat'⟩, ⟨clearBetween_lessened hless hl hl' hcut' hins hex.unbraced
    hflush huncrossed heditable.clear, hmarked'⟩, hattributes, hB⟩

end Crosslink.AttributeList
