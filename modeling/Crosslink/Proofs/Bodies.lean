import Mathlib.Data.List.Find
import Crosslink.Proofs.Partition
import Crosslink.Proofs.Headers
import Crosslink.Proofs.Seats

/-!
# Class bodies of two sources

When groups of a method are replaced by others, the classes of the source are read as they were, each
method as many bytes on as stand before it now. Only the one method has the other groups.

* §1 `DocsMoved`, the documentation comments of two sources.
* §2 `Method.shift`, and the methods that turns make when they are taken elsewhere.
* §3 `Method.Again`, a method of two sources.
* §4 `Revised`, a source and one that is another in a stretch, and `exists_classes_regrouped`, their
  classes when the groups of a method are others.
* §5 `exists_classes_extended`, the classes of a source into which groups are put.
-/

namespace Crosslink.Source

open TokenSequence

variable {source out : Text} {l l' : TokenSequence} {P M Q : List Piece} {d e : Span} {b s : Nat}

/-! ## §1 Documentation comments -/

theorem docsIn_shift (offset w : Nat) (ps : List Piece) :
    docsIn (offset + w) ps = (docsIn offset ps).map (Span.shift w) := by
  induction ps generalizing offset with
  | nil => rfl
  | cons p ps ih =>
    rw [docsIn, docsIn, List.map_append, ← ih, Nat.add_right_comm offset w]
    split <;> simp [Span.shift]

theorem docBetween_bounds (h : d ∈ l.docBetween b s) : d ∈ l.docs ∧ b ≤ d.start ∧ d.stop ≤ s := by
  have hfound := List.find?_some h
  have hmem := List.mem_of_find?_eq_some h
  simp only [Bool.and_eq_true, decide_eq_true_eq] at hfound
  exact ⟨List.mem_reverse.mp hmem, hfound⟩

/-- What two sources have in common in their documentation comments, of which the second has `w` bytes
more at an offset. -/
structure DocsMoved (place w : Nat) (source out : Text) (docs docs' : Nat → Nat → Option Span) : Prop where
  before : ∀ b s, s ≤ place → docs' b s = docs b s ∧ ∀ d ∈ docs b s, d.slice out = d.slice source
  after : ∀ b s, place ≤ b → docs' (b + w) (s + w) = (docs b s).map (Span.shift w) ∧
    ∀ d ∈ docs b s, (d.shift w).slice out = d.slice source

/-- The documentation comments of a source and of one that has some pieces more. -/
theorem docs_inserted (hl : tokenize source = .ok l) (hl' : tokenize out = .ok l')
    (hcut : cut source = P ++ Q) (hcut' : cut out = P ++ (M ++ Q)) (hM : ∀ p ∈ M, p.kind ≠ .doc) :
    l.docs = docsIn 0 P ++ docsIn (Reading.extent P) Q ∧
      l'.docs = docsIn 0 P ++ (docsIn (Reading.extent P) Q).map (Span.shift (Reading.extent M)) := by
  rw [(bare_of_tokenize hl).2, (bare_of_tokenize hl').2, hcut, hcut', docsIn_append, docsIn_append,
    docsIn_append, docsIn_of_none _ hM, Nat.zero_add, docsIn_shift]
  exact ⟨rfl, rfl⟩

theorem slice_before {x m y : Text} (h : d.stop ≤ Text.width x) :
    d.slice (x ++ (m ++ y)) = d.slice (x ++ y) := by
  rw [Span.slice, Span.slice, Text.slice_append_of_le h, Text.slice_append_of_le h]

theorem slice_after {x m y : Text} (h : Text.width x ≤ d.start) (hle : d.start ≤ d.stop) :
    (d.shift (Text.width m)).slice (x ++ (m ++ y)) = d.slice (x ++ y) := by
  obtain ⟨n, hn⟩ := Nat.exists_eq_add_of_le h
  obtain ⟨n', hn'⟩ := Nat.exists_eq_add_of_le (Nat.le_trans h hle)
  have hout := Text.slice_width_add (x ++ m) y n n'
  rw [List.append_assoc, Text.width_append] at hout
  rw [Span.slice, Span.slice, Span.shift, hn, hn', Nat.add_right_comm, Nat.add_right_comm _ n',
    hout, Text.slice_width_add]

/-- The last documentation comment before a place where nothing but new pieces may come. -/
theorem docBetween_across (hl : tokenize source = .ok l) (hl' : tokenize out = .ok l')
    (hcut : cut source = P ++ Q) (hcut' : cut out = P ++ (M ++ Q)) (hM : ∀ p ∈ M, p.kind ≠ .doc)
    {s' : Nat} (b : Nat) (hgap : ∀ d ∈ docsIn (Reading.extent P) Q, s < d.stop)
    (hgap' : s' ≤ Reading.extent P + Reading.extent M)
    (hsame : ∀ d ∈ docsIn 0 P, d.stop ≤ s ↔ d.stop ≤ s') :
    l'.docBetween b s' = l.docBetween b s := by
  obtain ⟨hdocs, hdocs'⟩ := docs_inserted hl hl' hcut hcut' hM
  have hnone : (docsIn (Reading.extent P) Q).reverse.find? (fun d => b ≤ d.start && d.stop ≤ s) = none := by
    refine List.find?_eq_none.mpr fun d hd => ?_
    have := hgap d (List.mem_reverse.mp hd)
    simp only [Bool.and_eq_true, decide_eq_true_eq]
    omega
  have hnone' : ((docsIn (Reading.extent P) Q).map (Span.shift (Reading.extent M))).reverse.find?
      (fun d => b ≤ d.start && d.stop ≤ s') = none := by
    refine List.find?_eq_none.mpr fun d hd => ?_
    obtain ⟨e, he, rfl⟩ := List.mem_map.mp (List.mem_reverse.mp hd)
    have := bounds_of_mem_docsIn he
    have hlt : e.start < e.stop := doc_lt hl (by rw [hdocs]; exact List.mem_append_right _ he)
    rw [Bool.and_eq_true, decide_eq_true_eq, decide_eq_true_eq]
    dsimp only [Span.shift]
    omega
  rw [docBetween, docBetween, hdocs, hdocs', List.reverse_append, List.reverse_append,
    List.find?_append, List.find?_append, hnone, hnone', Option.none_or, Option.none_or]
  refine List.find?_congr fun d hd => ?_
  rw [decide_eq_decide.mpr (hsame d (List.mem_reverse.mp hd))]

/-- The documentation comments after a place move on, and those before it do not. Others may stand in
what is put there. -/
theorem docsMoved_of_middle {place w : Nat} {D F E : List Span} (hdocs : l.docs = D ++ E)
    (hdocs' : l'.docs = D ++ (F ++ E.map (Span.shift w))) (hlt : ∀ d ∈ l.docs, d.start < d.stop)
    (hD : ∀ d ∈ D, d.stop ≤ place ∧ d.slice out = d.slice source)
    (hF : ∀ d ∈ F, place ≤ d.start ∧ d.start < d.stop ∧ d.stop ≤ place + w)
    (hE : ∀ d ∈ E, place ≤ d.start ∧ (d.shift w).slice out = d.slice source) :
    DocsMoved place w source out l.docBetween l'.docBetween := by
  have hltD : ∀ d ∈ D, d.start < d.stop := fun d hd => hlt d (by rw [hdocs]; exact List.mem_append_left _ hd)
  have hltE : ∀ d ∈ E, d.start < d.stop := fun d hd => hlt d (by rw [hdocs]; exact List.mem_append_right _ hd)
  have hpart : ∀ b s, ∀ d ∈ l.docBetween b s, b ≤ d.start ∧ d.stop ≤ s ∧ (d ∈ D ∨ d ∈ E) := fun b s d hd => by
    obtain ⟨hmem, hb, hs⟩ := docBetween_bounds hd
    rw [hdocs] at hmem
    exact ⟨hb, hs, List.mem_append.mp hmem⟩
  refine ⟨fun b s hs => ⟨?_, fun d hd => ?_⟩, fun b s hb => ⟨?_, fun d hd => ?_⟩⟩
  · have hlate : E.reverse.find? (fun d => b ≤ d.start && d.stop ≤ s) = none := by
      refine List.find?_eq_none.mpr fun d hd => ?_
      have := hE d (List.mem_reverse.mp hd)
      have := hltE d (List.mem_reverse.mp hd)
      simp only [Bool.and_eq_true, decide_eq_true_eq]
      omega
    have hlate' : (E.map (Span.shift w)).reverse.find? (fun d => b ≤ d.start && d.stop ≤ s) = none := by
      refine List.find?_eq_none.mpr fun d hd => ?_
      obtain ⟨e, he, rfl⟩ := List.mem_map.mp (List.mem_reverse.mp hd)
      have := hE e he
      have := hltE e he
      rw [Bool.and_eq_true, decide_eq_true_eq, decide_eq_true_eq]
      dsimp only [Span.shift]
      omega
    have hmiddle : F.reverse.find? (fun d => b ≤ d.start && d.stop ≤ s) = none := by
      refine List.find?_eq_none.mpr fun d hd => ?_
      have := hF d (List.mem_reverse.mp hd)
      simp only [Bool.and_eq_true, decide_eq_true_eq]
      omega
    rw [docBetween, docBetween, hdocs, hdocs', List.reverse_append, List.reverse_append,
      List.reverse_append, List.find?_append, List.find?_append, List.find?_append, hlate, hlate', hmiddle,
      Option.none_or]
  · obtain ⟨-, hstop, hd | hd⟩ := hpart b s d hd
    · exact (hD d hd).2
    · have := hE d hd
      have := hltE d hd
      omega
  · have hearly : ∀ (w : Nat) (s : Nat), D.reverse.find? (fun d => b + w ≤ d.start && d.stop ≤ s) = none := by
      refine fun w s => List.find?_eq_none.mpr fun d hd => ?_
      have := hD d (List.mem_reverse.mp hd)
      have := hltD d (List.mem_reverse.mp hd)
      simp only [Bool.and_eq_true, decide_eq_true_eq]
      omega
    have hzero := hearly 0 s
    rw [Nat.add_zero] at hzero
    have hmiddle : F.reverse.find? (fun d => b + w ≤ d.start && d.stop ≤ s + w) = none := by
      refine List.find?_eq_none.mpr fun d hd => ?_
      have := hF d (List.mem_reverse.mp hd)
      simp only [Bool.and_eq_true, decide_eq_true_eq]
      omega
    rw [docBetween, docBetween, hdocs, hdocs', List.reverse_append, List.reverse_append,
      List.reverse_append, List.find?_append, List.find?_append, List.find?_append, hearly, hzero, hmiddle,
      Option.or_none, Option.or_none, Option.or_none, ← List.map_reverse, List.find?_map]
    refine congrArg (Option.map _) (List.find?_congr fun d _ => ?_)
    simp only [Function.comp_apply, Span.shift, Nat.add_le_add_iff_right]
  · obtain ⟨hstart, -, hd | hd⟩ := hpart b s d hd
    · have := hD d hd
      have := hltD d hd
      omega
    · exact (hE d hd).2

theorem docsMoved_of_parts {place w : Nat} {D E : List Span} (hdocs : l.docs = D ++ E)
    (hdocs' : l'.docs = D ++ E.map (Span.shift w)) (hlt : ∀ d ∈ l.docs, d.start < d.stop)
    (hD : ∀ d ∈ D, d.stop ≤ place ∧ d.slice out = d.slice source)
    (hE : ∀ d ∈ E, place ≤ d.start ∧ (d.shift w).slice out = d.slice source) :
    DocsMoved place w source out l.docBetween l'.docBetween :=
  docsMoved_of_middle (F := []) hdocs hdocs' hlt hD (by simp) hE

theorem docsMoved (hl : tokenize source = .ok l) (hl' : tokenize out = .ok l')
    (hcut : cut source = P ++ Q) (hcut' : cut out = P ++ (M ++ Q)) :
    DocsMoved (Reading.extent P) (Reading.extent M) source out l.docBetween l'.docBetween := by
  have hdocs : l.docs = docsIn 0 P ++ docsIn (Reading.extent P) Q := by
    rw [(bare_of_tokenize hl).2, hcut, docsIn_append, Nat.zero_add]
  have hdocs' : l'.docs = docsIn 0 P ++ (docsIn (Reading.extent P) M ++
      (docsIn (Reading.extent P) Q).map (Span.shift (Reading.extent M))) := by
    rw [(bare_of_tokenize hl').2, hcut', docsIn_append, docsIn_append, Nat.zero_add, docsIn_shift]
  have hsource : source = P.flatMap Piece.text ++ Q.flatMap Piece.text := by
    rw [← List.flatMap_append, ← hcut, cut_flatten]
  have hout : out = P.flatMap Piece.text ++ (M.flatMap Piece.text ++ Q.flatMap Piece.text) := by
    rw [← List.flatMap_append, ← List.flatMap_append, ← hcut', cut_flatten]
  refine docsMoved_of_middle hdocs hdocs' (fun d hd => doc_lt hl hd) (fun d hd => ?_) (fun d hd => ?_)
    fun d hd => ?_
  · have := (bounds_of_mem_docsIn hd).2.2
    rw [Nat.zero_add] at this
    refine ⟨this, ?_⟩
    rw [hsource, hout]
    exact slice_before this
  · obtain ⟨hstart, -, hstop⟩ := bounds_of_mem_docsIn hd
    exact ⟨hstart, doc_lt hl' (by rw [hdocs']; simp [hd]), hstop⟩
  · have := (bounds_of_mem_docsIn hd).1
    refine ⟨this, ?_⟩
    rw [hsource, hout]
    exact slice_after this (doc_lt hl (by rw [hdocs]; exact List.mem_append_right _ hd)).le

/-- Its text is the same in both sources. -/
theorem doc_text_across (hl : tokenize source = .ok l) (hl' : tokenize out = .ok l')
    (hcut : cut source = P ++ Q) (hcut' : cut out = P ++ (M ++ Q)) (hM : ∀ p ∈ M, p.kind ≠ .doc)
    {s' : Nat} (b : Nat) (hgap : ∀ d ∈ docsIn (Reading.extent P) Q, s < d.stop)
    (hgap' : s' ≤ Reading.extent P + Reading.extent M) (hs : Reading.extent P ≤ s)
    (hs' : Reading.extent P ≤ s') :
    (l'.docBetween b s').map (Span.slice · out) = (l.docBetween b s).map (Span.slice · source) := by
  have hearly : ∀ d ∈ docsIn 0 P, d.stop ≤ Reading.extent P := fun d hd => by
    simpa using (bounds_of_mem_docsIn hd).2.2
  rw [docBetween_across hl hl' hcut hcut' hM b hgap hgap' fun d hd =>
    iff_of_true (Nat.le_trans (hearly d hd) hs) (Nat.le_trans (hearly d hd) hs')]
  refine Option.map_congr fun d hd => ?_
  obtain ⟨hmem, -, hstop⟩ := docBetween_bounds hd
  rw [(docs_inserted hl hl' hcut hcut' hM).1] at hmem
  obtain hmem | hmem := List.mem_append.mp hmem
  · have hslice := slice_before (m := M.flatMap Piece.text) (y := Q.flatMap Piece.text) (hearly d hmem)
    rw [← List.flatMap_append, ← List.flatMap_append, ← List.flatMap_append, ← hcut, ← hcut', cut_flatten,
      cut_flatten] at hslice
    exact hslice
  · have := hgap d hmem
    omega

/-- A member that starts where it did before the place, or with what is put there, has the same
documentation. -/
theorem doc_of_start (hl : tokenize source = .ok l) (hl' : tokenize out = .ok l')
    (hcut : cut source = P ++ Q) (hcut' : cut out = P ++ (M ++ Q)) (hM : ∀ p ∈ M, p.kind ≠ .doc)
    {s' : Nat} (b : Nat) (h : s' = s ∧ s ≤ Reading.extent P ∨ Reading.extent P ≤ s ∧
      (∀ d ∈ docsIn (Reading.extent P) Q, s < d.stop) ∧ Reading.extent P ≤ s' ∧
        s' ≤ Reading.extent P + Reading.extent M) :
    (l'.docBetween b s').map (Span.slice · out) = (l.docBetween b s).map (Span.slice · source) := by
  obtain ⟨rfl, hs⟩ | ⟨hs, hgap, hs', hgap'⟩ := h
  · obtain ⟨hsame, htext⟩ := (docsMoved hl hl' hcut hcut').before b s' hs
    exact (congrArg _ hsame).trans (Option.map_congr htext)
  · exact doc_text_across hl hl' hcut hcut' hM b hgap hgap' hs hs'

/-! ## §2 Where turns end members -/

variable {docs docs' : Nat → Nat → Option Span} {p : Pending} {us : List Turn} {u : Turn}
  {place n w i close : Nat} {t : Token}

/-- The offset at which a turn ends a member. -/
def Turn.boundary : Turn → Option Nat
  | .grow _ _ => none
  | .reset stop _ => some stop
  | .method head _ => some head.stop

/-- A member ends with the last token that a turn passes. -/
theorem boundary_eq_stopAt (ht : l.tokens[i]? = some t) (hu : l.turn source close i t = some u) :
    ∀ s ∈ u.boundary, s = l.stopAt (u.next - 1) := by
  have hgrow : ∀ x next, some (Turn.grow x next) = some u → ∀ s ∈ u.boundary, s = l.stopAt (u.next - 1) := by
    rintro x next he s hs
    obtain rfl := Option.some.inj he
    cases hs
  unfold turn at hu
  split at hu
  · split at hu <;> exact hgrow _ _ hu
  · split at hu
    · exact hgrow _ _ hu
    · split at hu
      · unfold methodTurn at hu
        split at hu
        · exact hgrow _ _ hu
        · obtain ⟨body, -, rfl⟩ := Option.map_eq_some_iff.mp hu
          intro s hs
          exact (Option.some.inj hs).symm
      · split at hu
        · obtain rfl := Option.some.inj hu
          intro s hs
          obtain rfl := Option.some.inj hs
          exact (stopAt_eq ht).symm
        · split at hu
          · obtain rfl := Option.some.inj hu
            intro s hs
            exact (Option.some.inj hs).symm
          · split at hu <;> exact hgrow _ _ hu

/-- It ends after the token at which the turn is taken. -/
theorem start_le_boundary (hl : tokenize source = .ok l) {b : Nat} (hc : l.partnerAt b = some close)
    (hb : b < i) (hi : i < close) (ht : l.tokens[i]? = some t) (hu : l.turn source close i t = some u) :
    ∀ s ∈ u.boundary, t.span.start ≤ s := by
  intro s hs
  have hn := nested_of_tokenize hl
  obtain ⟨hlt, hle⟩ := turn_next hn hc hb hi ht hu
  have hsize := hn.lt_size hc
  have hmono := stopAt_mono hl (show i ≤ u.next - 1 by omega) (by omega)
  have htoken := token_lt hl ht
  rw [boundary_eq_stopAt ht hu s hs]
  rw [stopAt_eq ht] at hmono
  omega

/-! ## §3 Methods of two sources -/

/-- Two methods of two sources have the same name, modifiers and documentation. -/
structure Method.Alike (source out : Text) (m m' : Method) : Prop where
  name : m'.name = m.name
  modifiers : m'.modifiers = m.modifiers
  doc : m'.doc.map (Span.slice · out) = m.doc.map (Span.slice · source)

/-- A method is found again in another source, its groups moved on. -/
structure Method.Again (source out : Text) (m m' : Method) : Prop extends Method.Alike source out m m' where
  attributes : ∃ d w, m'.attributes = m.attributes.map (AttributeGroup.shift d w)

/-- A class is found again in another source. -/
structure DeclaredClass.Again (source out : Text) (c c' : DeclaredClass) : Prop where
  name : c'.name = c.name
  methods : List.Forall₂ (Method.Again source out) c.methods c'.methods

theorem map_of_forall₂ {α β γ : Type} {R : α → β → Prop} {f : α → γ} {f' : β → γ}
    (hf : ∀ x y, R x y → f' y = f x) {xs : List α} {ys : List β} (h : List.Forall₂ R xs ys) :
    ys.map f' = xs.map f := by
  induction h with
  | nil => rfl
  | cons hxy _ ih => rw [List.map_cons, List.map_cons, hf _ _ hxy, ih]

/-- The member that is coming, moved on by `n` tokens and `w` bytes. -/
def Pending.shift (n w : Nat) (p : Pending) : Pending where
  attributes := p.attributes.map (AttributeGroup.shift n w)
  start := p.start.map (· + w)
  headStart := p.headStart.map (· + w)
  modifiers := p.modifiers
  boundary := p.boundary + w

theorem Pending.grow_shift (p : Pending) (x : Growth) :
    (p.shift n w).grow (x.shift n w) = (p.grow x).shift n w := by
  cases x with
  | group g =>
    cases hs : p.start <;>
      simp [Pending.grow, Pending.group, Growth.shift, Pending.shift, hs, AttributeGroup.shift, Span.shift]
  | word place modifiers =>
    cases hs : p.start <;> cases hh : p.headStart <;>
      simp [Pending.grow, Pending.keyword, Growth.shift, Pending.shift, hs, hh]
  | skip => rfl

/-- Turns before the place make the same methods. -/
theorem again_before (hdocs : DocsMoved place w source out docs docs') (p : Pending)
    (hp : ∀ s ∈ p.start, s ≤ place) (hus : ∀ u ∈ us, ∀ s ∈ u.place, s ≤ place) :
    List.Forall₂ (Method.Again source out) (playback docs p us) (playback docs' p us) := by
  have hmax : ∀ o o' : Option Nat, (∀ s ∈ o, s ≤ place) → (∀ s ∈ o', s ≤ place) →
      ∀ s ∈ o.or o', s ≤ place := by
    intro o o' ho ho' s hs
    cases o with
    | none => exact ho' s hs
    | some s' => exact ho s hs
  induction us generalizing p with
  | nil => exact .nil
  | cons u us ih =>
    have hrest : ∀ v ∈ us, ∀ s ∈ v.place, s ≤ place := fun v hv => hus v (List.mem_cons_of_mem _ hv)
    have hfirst := hmax _ _ hp (hus u List.mem_cons_self)
    cases u with
    | grow x next => exact ih _ (by rw [start_grow]; exact hfirst) hrest
    | reset stop next => exact ih (.fresh stop) (by simp [Pending.fresh]) hrest
    | method head next =>
      refine .cons ?_ (ih (.fresh head.stop) (by simp [Pending.fresh]) hrest)
      have hstart := hfirst _ (start_method docs p head).symm
      obtain ⟨hdoc, htext⟩ := hdocs.before p.boundary _ hstart
      refine ⟨⟨rfl, rfl, ?_⟩, 0, 0, ?_⟩
      · show (docs' p.boundary (p.method docs head).start).map _ =
          (docs p.boundary (p.method docs head).start).map _
        rw [hdoc]
        exact Option.map_congr htext
      · exact ((List.map_congr_left fun g _ => group_shift_zero g).trans (List.map_id _)).symm

/-- Turns after the place make the same methods, moved on. -/
theorem again_after (hdocs : DocsMoved place w source out docs docs') (n : Nat) (p : Pending)
    (hp : place ≤ p.boundary) (hus : ∀ u ∈ us, ∀ s ∈ u.boundary, place ≤ s) :
    List.Forall₂ (Method.Again source out) (playback docs p us)
      (playback docs' (p.shift n w) (us.map (Turn.shift n w))) := by
  induction us generalizing p with
  | nil => exact .nil
  | cons u us ih =>
    have hrest : ∀ v ∈ us, ∀ s ∈ v.boundary, place ≤ s := fun v hv => hus v (List.mem_cons_of_mem _ hv)
    cases u with
    | grow x next =>
      rw [List.map_cons, Turn.shift, playback, playback, Pending.grow_shift]
      refine ih _ ?_ hrest
      cases x <;> exact hp
    | reset stop next => exact ih (.fresh stop) (hus _ List.mem_cons_self stop rfl) hrest
    | method head next =>
      refine .cons ?_ (ih (.fresh head.stop) (hus _ List.mem_cons_self head.stop rfl) hrest)
      have hstart : (p.shift n w).start.getD (head.shift w).place = p.start.getD head.place + w := by
        cases hs : p.start <;> simp [Pending.shift, MethodHead.shift, hs]
      obtain ⟨hdoc, htext⟩ := hdocs.after p.boundary (p.start.getD head.place) hp
      refine ⟨⟨rfl, rfl, ?_⟩, n, w, rfl⟩
      show (docs' (p.boundary + w) ((p.shift n w).start.getD (head.shift w).place)).map _ =
        (docs p.boundary (p.start.getD head.place)).map _
      rw [hstart, hdoc, Option.map_map]
      exact Option.map_congr htext

/-! ## §4 Sources that are revised -/

variable {block : Array Token} {H : ClassHeader} {Hs₁ Hs₂ : List ClassHeader} {b' : Nat}
  {xs₁ xs₂ : List (Growth × Nat)} {head : MethodHead} {m : Method} {ms ms' : List Method}
  {gs : List AttributeGroup}

theorem groupsIn_shift (xs : List (Growth × Nat)) (n w : Nat) :
    groupsIn (xs.map fun x => (x.1.shift n w, x.2 + n)) = (groupsIn xs).map (AttributeGroup.shift n w) := by
  induction xs with
  | nil => rfl
  | cons x xs ih =>
    obtain ⟨x, next⟩ := x
    cases x with
    | group g => exact congrArg (g.shift n w :: ·) ih
    | word place modifiers => exact ih
    | skip => exact ih

theorem growTurns_shift (xs : List (Growth × Nat)) (n w : Nat) :
    (growTurns xs).map (Turn.shift n w) = growTurns (xs.map fun x => (x.1.shift n w, x.2 + n)) := by
  simp [growTurns, Function.comp_def, Turn.shift]

theorem modifiers_growAll_turnsAt (p : Pending) (gs : List AttributeGroup) :
    (growAll p (turnsAt gs)).modifiers = p.modifiers := by
  induction gs generalizing p with
  | nil => rfl
  | cons g gs ih => exact ih (p.grow (.group g))

theorem modifiers_growAll_shift {p q : Pending} (h : p.modifiers = q.modifiers) (xs : List (Growth × Nat))
    (n w : Nat) : (growAll p (xs.map fun x => (x.1.shift n w, x.2 + n))).modifiers =
      (growAll q xs).modifiers := by
  induction xs generalizing p q with
  | nil => exact h
  | cons x xs ih =>
    obtain ⟨x, next⟩ := x
    refine ih ?_
    cases x <;> simp [Pending.grow, Pending.group, Pending.keyword, Growth.shift, h]

/-- A source is revised between the tokens `x` and `y`: around them the other has the same tokens, and no
documentation comment but those that stand before a place between them or after it. -/
structure Revised (place : Nat) (f : Nat → Nat) (x y d w : Nat) (source out : Text) (l l' : TokenSequence) :
    Prop extends Around f x y d w source out l l' where
  read : tokenize source = .ok l
  early : ∀ i t, i < x → l.tokens[i]? = some t → t.span.stop ≤ place
  late : ∀ i t, y ≤ i → l.tokens[i]? = some t → place ≤ t.span.start
  docs : DocsMoved place w source out l.docBetween l'.docBetween
  /-- What comes after the tokens before `x` begins with a group of attributes. -/
  opens : Copied.Ends x 0 l'

namespace Revised

variable {f : Nat → Nat} {x y d w : Nat} {gs' : List AttributeGroup}

/-- What is known of a class that stands before the revision. -/
theorem again_before (h : Revised place f x y d w source out l l') (hH : H.Stands l) (hx : H.close < x) :
    DeclaredClass.Again source out (H.read l source) ((H.carry f).read l' out) := by
  have hlt := hH.lt
  have hcopied := h.before
  have hturns := turnsFrom_copied hcopied h.read (hcopied.silent h.nested h.opens) hH.partner
    (Nat.zero_le (H.body + 1))
    (Nat.lt_succ_self _) (show H.close ≤ x by omega)
  have hstop := hcopied.stopAt (Nat.zero_le H.body) (by omega)
  rw [Nat.add_zero, Nat.add_zero, Turn.shift_zero, List.map_id] at hturns
  rw [Nat.add_zero, Nat.add_zero] at hstop
  refine ⟨rfl, ?_⟩
  dsimp only [ClassHeader.read, ClassHeader.carry]
  rw [hcopied.inside _ (Nat.zero_le _) hx, hcopied.inside _ (Nat.zero_le _) (show H.body < x by omega),
    Nat.add_zero H.close, Nat.add_zero H.body, methodsFrom_eq, methodsFrom_eq, hturns, hstop]
  refine Source.again_before h.docs _ (by simp [Pending.fresh]) fun u hu s hs => ?_
  obtain ⟨j, t, -, hj, ht, hturn⟩ := exists_token_of_mem_turnsFrom hu
  have hearly := h.early j t (by omega) ht
  have htoken := token_lt h.read ht
  rw [place_of_turn h.nested ht hturn s hs]
  omega

/-- The rest of a walk after it. -/
theorem turnsFrom_after (h : Revised place f x y d w source out l l') (hH : H.Stands l) (hi : y ≤ i)
    (hb : H.body < i) :
    l'.turnsFrom out (H.close + d) (i + d) = (l.turnsFrom source H.close i).map (Turn.shift d w) := by
  have hends : Copied.Ends l.tokens.size d l' := fun v hv => by
    rw [Array.getElem?_eq_none (by have := h.size; omega)] at hv
    cases hv
  exact turnsFrom_copied h.after h.read (h.after.silent h.nested hends) hH.partner hi hb
    (Nat.le_of_lt (h.nested.lt_size hH.partner))

/-- The members that are read after it end after it. -/
theorem place_le_boundary (h : Revised place f x y d w source out l l') (hH : H.Stands l) (hi : y ≤ i)
    (hb : H.body < i) (hu : u ∈ l.turnsFrom source H.close i) : ∀ s ∈ u.boundary, place ≤ s := by
  intro s hs
  obtain ⟨j, t, hij, hj, ht, hturn⟩ := exists_token_of_mem_turnsFrom hu
  exact Nat.le_trans (h.late j t (by omega) ht)
    (start_le_boundary h.read hH.partner (by omega) hj ht hturn s hs)

/-- What is known of a class that stands after it. -/
theorem again_after (h : Revised place f x y d w source out l l') (hH : H.Stands l) (hy : y ≤ H.body) :
    DeclaredClass.Again source out (H.read l source) ((H.carry f).read l' out) := by
  have hlt := hH.lt
  have hsize := h.nested.lt_size hH.partner
  have hturns := h.turnsFrom_after hH (show y ≤ H.body + 1 by omega) (Nat.lt_succ_self _)
  have hstop := h.after.stopAt hy (by omega)
  refine ⟨rfl, ?_⟩
  dsimp only [ClassHeader.read, ClassHeader.carry]
  rw [h.after.inside _ hy (by omega), h.after.inside _ (show y ≤ H.close by omega) hsize, methodsFrom_eq,
    methodsFrom_eq, Nat.add_right_comm, hturns, hstop]
  refine Source.again_after h.docs d (.fresh (l.stopAt H.body)) ?_ fun u hu =>
    h.place_le_boundary hH (show y ≤ H.body + 1 by omega) (Nat.lt_succ_self _) hu
  have hbody := Array.getElem?_eq_getElem (show H.body < l.tokens.size by omega)
  have := h.late _ _ hy hbody
  have := token_lt h.read hbody
  show place ≤ l.stopAt H.body
  rw [stopAt_eq hbody]
  omega

end Revised

/-- A method of another source is this one with other groups in the place of some. -/
structure Method.Regrouped (source out : Text) (m : Method) (A gs gs' B : List AttributeGroup) (m' : Method) :
    Prop extends Method.Alike source out m m' where
  old : m.attributes = A ++ (gs ++ B)
  attributes : ∃ d w, m'.attributes = A ++ (gs' ++ B.map (AttributeGroup.shift d w))

/-- What has been taken in for a member of which the groups `gs` stand in the place of others, when those
that come after them have been moved on. -/
def Pending.regrouped (b : Nat) (xs₁ : List (Growth × Nat)) (gs : List AttributeGroup)
    (xs₂ : List (Growth × Nat)) (d w : Nat) : Pending :=
  growAll (growAll (growAll (.fresh b) xs₁) (turnsAt gs)) (xs₂.map fun x => (x.1.shift d w, x.2 + d))

namespace Revised

variable {f : Nat → Nat} {x y d w : Nat} {gs' : List AttributeGroup}

/-- The class in which some groups are replaced has the methods it had, one of them with the others in
their place. -/
theorem exists_regrouped (h : Revised place f x y d w source out l l') (hH : H.Stands l)
    (hseat : Seat l source l.docBetween H.close (H.body + 1) (l.stopAt H.body) ms m ms' us x b'
      xs₁ (turnsAt gs ++ xs₂) head)
    (hgs : TokenSequence.Path l source H.close x (growTurns (turnsAt gs)) y)
    (hgs' : TokenSequence.Path l' out (H.close + d) x (growTurns (turnsAt gs')) (y + d))
    (hclose : y ≤ H.close)
    (hdoc : (l'.docBetween b' ((Pending.regrouped b' xs₁ gs' xs₂ d w).start.getD (head.place + w))).map
      (Span.slice · out) = m.doc.map (Span.slice · source)) :
    ∃ ms₁ m₁ ms₂, ((H.carry f).read l' out).methods = ms₁ ++ m₁ :: ms₂ ∧
      List.Forall₂ (Method.Again source out) ms ms₁ ∧ List.Forall₂ (Method.Again source out) ms' ms₂ ∧
      Method.Regrouped source out m (groupsIn xs₁) gs gs' (groupsIn xs₂) m₁ ∧
      m₁.start = (Pending.regrouped b' xs₁ gs' xs₂ d w).start.getD (head.place + w) := by
  have hlt := hseat.lt
  have hbody := hseat.path.le
  have hxy := hgs.le
  have hsize := h.nested.lt_size hH.partner
  have hfirst : ∀ u ∈ us, ∀ s ∈ u.place, s ≤ place := by
    intro u hu s hs
    obtain ⟨j, t, -, hj, ht, hturn⟩ := hseat.path.exists_token hu
    have hearly := h.early j t hj ht
    have htoken := token_lt h.read ht
    rw [place_of_turn h.nested ht hturn s hs]
    omega
  obtain ⟨next, us₂, hrest, hms'⟩ := hseat.rest
  -- what comes after the groups
  rw [hgs.turnsFrom_eq, growTurns_append, List.append_assoc] at hrest
  replace hrest := List.append_cancel_left hrest
  -- the walk over the class body, with the turns at the other groups
  have hturns : l'.turnsFrom out (H.close + d) (H.body + 1) =
      us ++ (growTurns (turnsAt gs') ++ (growTurns xs₂ ++ .method head next :: us₂).map (Turn.shift d w)) := by
    have hfront := hseat.path.copied h.before h.nested (h.before.silent h.nested h.opens)
      (Nat.zero_le _) (Nat.le_refl _)
      (show ∀ b, b < H.close → b < x → b + 0 < H.close + d by omega)
    rw [Turn.shift_zero, List.map_id, Nat.add_zero, Nat.add_zero] at hfront
    rw [(hfront.append hgs').turnsFrom_eq, h.turnsFrom_after hH (Nat.le_refl _) (by omega), hrest,
      List.append_assoc]
  have hstop : l'.stopAt H.body = l.stopAt H.body := by
    have hstop := h.before.stopAt (Nat.zero_le H.body) (by omega)
    rwa [Nat.add_zero, Nat.add_zero] at hstop
  have hmethods : ((H.carry f).read l' out).methods =
      playback l'.docBetween (.fresh (l.stopAt H.body)) us ++
        (Pending.regrouped b' xs₁ gs' xs₂ d w).method l'.docBetween (head.shift w) ::
          playback l'.docBetween ((Pending.fresh head.stop).shift d w) (us₂.map (Turn.shift d w)) := by
    dsimp only [ClassHeader.read, ClassHeader.carry]
    rw [h.before.inside _ (Nat.zero_le _) (show H.body < x by omega), Nat.add_zero,
      h.after.inside _ hclose hsize, methodsFrom_eq, hstop, hturns, playback_append, hseat.pending,
      playback_growTurns, List.map_append, growTurns_shift, playback_growTurns]
    rfl
  have hturn : ∀ u ∈ .method head next :: us₂, ∀ s ∈ u.boundary, place ≤ s := fun u hu =>
    h.place_le_boundary hH (Nat.le_refl y) (by omega) (hrest ▸ List.mem_append_right _ hu)
  refine ⟨_, _, _, hmethods, ?_, ?_, ⟨⟨?_, ?_, ?_⟩, ?_, d, w, ?_⟩, rfl⟩
  · rw [← hseat.before]
    exact Source.again_before h.docs _ (by simp [Pending.fresh]) hfirst
  · rw [← hms']
    exact Source.again_after h.docs _ (.fresh head.stop) (hturn _ List.mem_cons_self _ rfl) fun u hu =>
      hturn u (List.mem_cons_of_mem _ hu)
  · rw [hseat.method]
    rfl
  · rw [hseat.method, growAll_append, growAll_append]
    exact modifiers_growAll_shift (by rw [modifiers_growAll_turnsAt, modifiers_growAll_turnsAt]) _ _ _
  · have hboundary : (Pending.regrouped b' xs₁ gs' xs₂ d w).boundary = b' := by
      rw [Pending.regrouped, boundary_growAll, boundary_growAll, boundary_growAll]
      rfl
    show (l'.docBetween (Pending.regrouped b' xs₁ gs' xs₂ d w).boundary _).map _ = _
    rw [hboundary]
    exact hdoc
  · rw [hseat.attributes, groupsIn_append, groupsIn_turnsAt]
  · show (Pending.regrouped b' xs₁ gs' xs₂ d w).attributes = _
    rw [Pending.regrouped, attributes_growAll, attributes_growAll, attributes_growAll, groupsIn_turnsAt,
      groupsIn_shift, List.append_assoc]
    rfl

/-- Where some groups of a method are replaced the classes are as they were but for them. -/
theorem exists_classes_regrouped (h : Revised place f x y d w source out l l')
    (hheaders : l.headersFrom 0 = Hs₁ ++ H :: Hs₂)
    (hseat : Seat l source l.docBetween H.close (H.body + 1) (l.stopAt H.body) ms m ms' us x b'
      xs₁ (turnsAt gs ++ xs₂) head)
    (hgs : TokenSequence.Path l source H.close x (growTurns (turnsAt gs)) y)
    (hgs' : TokenSequence.Path l' out (H.close + d) x (growTurns (turnsAt gs')) (y + d))
    (hclose : y ≤ H.close)
    (hdoc : (l'.docBetween b' ((Pending.regrouped b' xs₁ gs' xs₂ d w).start.getD (head.place + w))).map
      (Span.slice · out) = m.doc.map (Span.slice · source)) :
    ∃ C₁ c C₂ ms₁ m₁ ms₂, l'.classes out = C₁ ++ c :: C₂ ∧
      List.Forall₂ (DeclaredClass.Again source out) (Hs₁.map (ClassHeader.read l source)) C₁ ∧
      List.Forall₂ (DeclaredClass.Again source out) (Hs₂.map (ClassHeader.read l source)) C₂ ∧
      c.name = H.name ∧ c.methods = ms₁ ++ m₁ :: ms₂ ∧
      List.Forall₂ (Method.Again source out) ms ms₁ ∧ List.Forall₂ (Method.Again source out) ms' ms₂ ∧
      Method.Regrouped source out m (groupsIn xs₁) gs gs' (groupsIn xs₂) m₁ ∧
      m₁.start = (Pending.regrouped b' xs₁ gs' xs₂ d w).start.getD (head.place + w) := by
  have hbody := hseat.path.le
  have hxy := hgs.le
  have hmem : ∀ H' ∈ Hs₁ ++ H :: Hs₂, H'.Stands l := fun H' hH' =>
    (stands_of_mem h.nested (hheaders ▸ hH')).2
  have hstands := hmem H (by simp)
  have horder := headersFrom_order h.nested 0
  rw [hheaders] at horder
  obtain ⟨-, horder₂, horder₁⟩ := List.pairwise_append.mp horder
  have horder₂ := (List.pairwise_cons.mp horder₂).1
  obtain ⟨ms₁, m₁, ms₂, hmethods, hms₁, hms₂, hm₁⟩ :=
    h.exists_regrouped hstands hseat hgs hgs' hclose hdoc
  have hclasses := h.headersFrom_carry (H := H) (i := 0) (by rw [hheaders]; simp) (by omega) hclose
  rw [hheaders, List.map_append, List.map_cons] at hclasses
  refine ⟨_, _, _, ms₁, m₁, ms₂, by rw [classes_eq, hclasses, List.map_append, List.map_cons], ?_, ?_, rfl,
    hmethods, hms₁, hms₂, hm₁⟩
  · rw [List.map_map, List.forall₂_map_left_iff, List.forall₂_map_right_iff, List.forall₂_same]
    intro H' hH'
    have hst := hmem H' (by simp [hH'])
    have := hst.lt
    have := horder₁ H' hH' H (by simp)
    have := hstands.first
    exact h.again_before hst (by omega)
  · rw [List.map_map, List.forall₂_map_left_iff, List.forall₂_map_right_iff, List.forall₂_same]
    intro H' hH'
    have hst := hmem H' (by simp [hH'])
    have := horder₂ H' hH'
    have := hst.first
    exact h.again_after hst (by omega)

end Revised

/-! ## §5 New groups -/

/-- A method of another source is this one with some groups more. -/
structure Method.Extended (source out : Text) (m : Method) (A gs B : List AttributeGroup) (m' : Method) :
    Prop extends Method.Alike source out m m' where
  old : m.attributes = A ++ B
  attributes : ∃ d w, m'.attributes = A ++ (gs ++ B.map (AttributeGroup.shift d w))
  /-- It starts where it did. -/
  start : m'.start = m.start

/-- The first of the groups that are put at a place starts there. -/
theorem start_of_first {g : AttributeGroup} (hl' : tokenize out = .ok l') (hcut' : cut out = P ++ (M ++ Q))
    (hn : l'.Nested) {close : Nat} (hgroups : TokenSequence.Path l' out close (countIn P)
      (growTurns (turnsAt (g :: gs))) (countIn P + countIn M)) :
    Reading.extent P ≤ g.span.start ∧ g.span.start ≤ Reading.extent P + Reading.extent M := by
  obtain ⟨t, ht, hplace, hin⟩ : ∃ t, l'.tokens[countIn P]? = some t ∧ g.span.start = t.span.start ∧
      countIn P + 1 ≤ countIn P + countIn M := by
    cases hgroups with
    | cons lt token turn rest =>
      have := rest.le
      exact ⟨_, token, place_of_turn hn token turn _ rfl, by omega⟩
  have hlow := (span_of_tokenize hl' hcut' ht).2
  have hhigh := (span_of_tokenize hl' (P := P ++ M) (Q := Q) (by rw [hcut']; simp) ht).1
  rw [length_tokensIn, ← countIn] at hlow hhigh
  rw [countIn_append, extent_append] at hhigh
  have := hlow (Nat.le_refl _)
  have := hhigh (by omega)
  have := token_lt hl' ht
  rw [hplace]
  omega

/-- A source is revised where pieces are put into it, among others or between two. -/
theorem revised_of_inserted {x y : Nat} (hl : tokenize source = .ok l) (hl' : tokenize out = .ok l')
    (hcut : cut source = P ++ Q) (hcut' : cut out = P ++ (M ++ Q))
    (h : Inserted (countIn P) (countIn M) block (P.flatMap Piece.text) (M.flatMap Piece.text) l l')
    (hx : x ≤ countIn P) (hy : countIn P ≤ y) (hopens : Copied.Ends x 0 l') :
    Revised (Reading.extent P) (lift (countIn P) (countIn M)) x y (countIn M) (Reading.extent M) source out
      l l' := by
  have hsource : source = P.flatMap Piece.text ++ Q.flatMap Piece.text := by
    rw [← List.flatMap_append, ← hcut, cut_flatten]
  have hout : out = P.flatMap Piece.text ++ (M.flatMap Piece.text ++ Q.flatMap Piece.text) := by
    rw [← List.flatMap_append, ← List.flatMap_append, ← hcut', cut_flatten]
  have haround := h.around (b := Q.flatMap Piece.text) hx hy
  rw [← hsource, ← hout] at haround
  exact ⟨haround, hl, fun i t hi ht => h.early i t (by omega) ht, fun i t hi ht => h.late i t (by omega) ht,
    docsMoved hl hl' hcut hcut', hopens⟩

/-- Groups put at the place for new groups of a method are groups of that method, and the classes are
as they were but for them. -/
theorem exists_classes_extended (hl : tokenize source = .ok l) (hl' : tokenize out = .ok l')
    (hcut : cut source = P ++ Q) (hcut' : cut out = P ++ (M ++ Q)) (hM : ∀ p ∈ M, p.kind ≠ .doc)
    (h : Inserted (countIn P) (countIn M) block (P.flatMap Piece.text) (M.flatMap Piece.text) l l')
    (hopens : ∀ t, l'.tokens[countIn P]? = some t → t.kind = .attrOpen ∧ t.text ≠ ['&'])
    (hheaders : l.headersFrom 0 = Hs₁ ++ H :: Hs₂)
    (hseat : Seat l source l.docBetween H.close (H.body + 1) (l.stopAt H.body) ms m ms' us (countIn P) b'
      xs₁ xs₂ head)
    (hclear : (growAll (.fresh b') xs₁).start = none →
      (∀ g ∈ gs.head?, g.span.start = m.start) ∧ ∀ d ∈ docsIn (Reading.extent P) Q, m.start < d.stop)
    (hgroups : TokenSequence.Path l' out (H.close + countIn M) (countIn P) (growTurns (turnsAt gs))
      (countIn P + countIn M)) (hne : gs ≠ []) :
    ∃ C₁ c C₂ ms₁ m₁ ms₂, l'.classes out = C₁ ++ c :: C₂ ∧
      List.Forall₂ (DeclaredClass.Again source out) (Hs₁.map (ClassHeader.read l source)) C₁ ∧
      List.Forall₂ (DeclaredClass.Again source out) (Hs₂.map (ClassHeader.read l source)) C₂ ∧
      c.name = H.name ∧ c.methods = ms₁ ++ m₁ :: ms₂ ∧
      List.Forall₂ (Method.Again source out) ms ms₁ ∧ List.Forall₂ (Method.Again source out) ms' ms₂ ∧
      Method.Extended source out m (groupsIn xs₁) gs (groupsIn xs₂) m₁ := by
  have hrevised := revised_of_inserted hl hl' hcut hcut' h (Nat.le_refl _) (Nat.le_refl _) hopens
  have hsome : ∀ s, (growAll (.fresh b') xs₁).start = some s → m.start = s := fun s hs => by
    rw [hseat.method, growAll_append]
    simp [Pending.method, start_growAll_of_some hs]
  -- what the method starts with stands where it did, or the first of the new groups stands there
  have hstart : (Pending.regrouped b' xs₁ gs xs₂ (countIn M) (Reading.extent M)).start = some m.start := by
    rw [Pending.regrouped]
    cases hstart : (growAll (.fresh b') xs₁).start with
    | some s => rw [start_growAll_of_some (start_growAll_of_some hstart _), hsome s hstart]
    | none =>
      obtain ⟨g, gs, rfl⟩ := List.exists_cons_of_ne_nil hne
      have hgroup : ((growAll (.fresh b') xs₁).grow (.group g)).start = some g.span.start := by
        rw [start_grow, hstart]
        rfl
      have hfound : (growAll (growAll (.fresh b') xs₁) (turnsAt (g :: gs))).start = some g.span.start :=
        start_growAll_of_some hgroup (turnsAt gs)
      rw [start_growAll_of_some hfound, (hclear hstart).1 g rfl]
  have hdoc : (l'.docBetween b' ((Pending.regrouped b' xs₁ gs xs₂ (countIn M)
      (Reading.extent M)).start.getD (head.place + Reading.extent M))).map (Span.slice · out) =
        m.doc.map (Span.slice · source) := by
    have hdoc : m.doc = l.docBetween b' m.start := by
      rw [hseat.method]
      exact congrArg (l.docBetween · _) (boundary_growAll _ _)
    rw [hdoc, hstart]
    refine doc_of_start hl hl' hcut hcut' hM b' ?_
    cases hfresh : (growAll (.fresh b') xs₁).start with
    | some s =>
      -- it stands before the new groups
      refine .inl ⟨rfl, ?_⟩
      have hmem := start_of_pendingAfter us (.fresh (l.stopAt H.body)) s
      rw [hseat.pending] at hmem
      obtain hnone | ⟨u, hu, hplace⟩ := hmem hfresh
      · cases hnone
      · obtain ⟨j, t, -, hj, ht, hturn⟩ := hseat.path.exists_token hu
        have hearly := hrevised.early j t hj ht
        have htoken := token_lt hl ht
        rw [hsome s hfresh, place_of_turn h.nested ht hturn s hplace]
        omega
    | none =>
      obtain ⟨hfirst, hgap⟩ := hclear hfresh
      obtain ⟨g, gs, rfl⟩ := List.exists_cons_of_ne_nil hne
      have hwithin := start_of_first hl' hcut' h.nested' hgroups
      rw [hfirst g rfl] at hwithin
      exact .inr ⟨hwithin.1, hgap, hwithin⟩
  have hnone : Seat l source l.docBetween H.close (H.body + 1) (l.stopAt H.body) ms m ms' us (countIn P) b'
    xs₁ (turnsAt [] ++ xs₂) head := hseat
  obtain ⟨C₁, c, C₂, ms₁, m₁, ms₂, hclasses, hC₁, hC₂, hname, hmethods, hms, hms', hm, hmstart⟩ :=
    hrevised.exists_classes_regrouped hheaders hnone (.nil _) hgroups hseat.lt.le hdoc
  rw [hstart] at hmstart
  exact ⟨C₁, c, C₂, ms₁, m₁, ms₂, hclasses, hC₁, hC₂, hname, hmethods, hms, hms', hm.toAlike, hm.old,
    hm.attributes, hmstart⟩

end Crosslink.Source
