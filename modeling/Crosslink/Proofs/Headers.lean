import Crosslink.Proofs.Members

/-!
# Classes of two sources

The classes of a file are found on a walk over its tokens that passes over class bodies whole. What
it finds are the headers of classes, told by tokens alone. When new tokens are put into the body of a
class, the walk finds the same headers, as many tokens on after the new ones.

* §1 `ClassHeader`, and `classes_eq`, the classes read at their headers.
* §2 Where headers stand.
* §3 `headersFrom_carry`, the headers of two sources.
-/

namespace Crosslink.Source

/-- Where a class is declared. -/
structure ClassHeader where
  name : Text
  /-- The index of its word. -/
  first : Nat
  /-- The index of the brace that opens its body. -/
  body : Nat
  /-- The index of the brace that closes its body. -/
  close : Nat

namespace TokenSequence

/-! ## §1 Headers -/

/-- The header found at the token `t` at `i`, if one is, and the index to go on at; nothing when no
class can follow. -/
def classTurn (l : TokenSequence) (i : Nat) (t : Token) : Option (Option ClassHeader × Nat) :=
  match l.beginsClass i t, (l.tokens[i + 1]?).filter (·.kind = .name) with
  | true, some name =>
    (l.findKind [.openBrace, .semicolon, .openParen] l.tokens.size (i + 2)).map fun body =>
      match if l.isKind body .openBrace then l.partnerAt body else none with
      | some close => (some ⟨name.text, i, body, close⟩, max (close + 1) (i + 1))
      | none => (none, max (body + 1) (i + 1))
  | _, _ => some (none, i + 1)

theorem lt_classTurn {l : TokenSequence} {i : Nat} {t : Token} {r : Option ClassHeader × Nat}
    (h : l.classTurn i t = some r) : i < r.2 := by
  unfold classTurn at h
  split at h
  · obtain ⟨body, -, rfl⟩ := Option.map_eq_some_iff.mp h
    split
    · exact Nat.lt_of_lt_of_le (Nat.lt_succ_self i) (Nat.le_max_right _ _)
    · exact Nat.lt_of_lt_of_le (Nat.lt_succ_self i) (Nat.le_max_right _ _)
  · obtain rfl := Option.some.inj h
    exact Nat.lt_succ_self i

/-- The headers of classes from the token `i` on. -/
def headersFrom (l : TokenSequence) (i : Nat) : List ClassHeader :=
  match _ht : l.tokens[i]? with
  | none => []
  | some t =>
    match _hr : l.classTurn i t with
    | none => []
    | some r => r.1.toList ++ headersFrom l r.2
termination_by l.tokens.size - i
decreasing_by
  have := (Array.getElem?_eq_some_iff.mp ‹_›).1
  have := lt_classTurn ‹_›
  omega

end TokenSequence

namespace ClassHeader

/-- The class declared at a header. -/
def read (l : TokenSequence) (source : Text) (h : ClassHeader) : DeclaredClass where
  name := h.name
  span := ⟨(l.tokens[h.first]?.map (·.span.start)).getD 0, l.stopAt h.close⟩
  methods := l.methodsFrom source h.close (.fresh (l.stopAt h.body)) (h.body + 1)

end ClassHeader

namespace TokenSequence

variable {l : TokenSequence} {source : Text} {i : Nat} {t : Token} {r : Option ClassHeader × Nat}
  {H : ClassHeader}

theorem headersFrom_of_turn (ht : l.tokens[i]? = some t) (hr : l.classTurn i t = some r) :
    l.headersFrom i = r.1.toList ++ l.headersFrom r.2 := by
  conv => lhs; rw [headersFrom]
  split
  · rename_i hnone
    rw [ht] at hnone
    cases hnone
  · rename_i u hu
    obtain rfl := Option.some.inj (ht.symm.trans hu)
    split
    · rename_i hnone
      rw [hr] at hnone
      cases hnone
    · rename_i q hq
      obtain rfl := Option.some.inj (hr.symm.trans hq)
      rfl

theorem headersFrom_of_stop (ht : l.tokens[i]? = some t) (hr : l.classTurn i t = none) :
    l.headersFrom i = [] := by
  rw [headersFrom]
  split
  · rfl
  · rename_i u hu
    obtain rfl := Option.some.inj (ht.symm.trans hu)
    split
    · rfl
    · rename_i q hq
      rw [hr] at hq
      cases hq

theorem headersFrom_of_none (ht : l.tokens[i]? = none) : l.headersFrom i = [] := by
  rw [headersFrom]
  split
  · rfl
  · rename_i u hu
    rw [ht] at hu
    cases hu

theorem classesFrom_eq (l : TokenSequence) (source : Text) (i : Nat) :
    l.classesFrom source i = (l.headersFrom i).map (ClassHeader.read l source) := by
  fun_induction classesFrom l source i with
  | case1 i htok =>
    rw [headersFrom_of_none htok]
    rfl
  | case2 i t ht name n hname hbegins hbody =>
    rw [headersFrom_of_stop ht]
    · rfl
    · have hname : (l.tokens[i + 1]?).filter (·.kind = .name) = some n := hname
      simp [classTurn, hbegins, hname, hbody]
  | case3 i t ht name n hname hbegins body hbody c hc ih =>
    have hname : (l.tokens[i + 1]?).filter (·.kind = .name) = some n := hname
    rw [dite_eq_ite] at hc
    have hturn : l.classTurn i t = some (some ⟨n.text, i, body, c⟩, max (c + 1) (i + 1)) := by
      simp only [classTurn, hbegins, hname, hbody, Option.map_some, hc]
    rw [headersFrom_of_turn ht hturn, ih]
    simp [ClassHeader.read, ht]
  | case4 i t ht name n hname hbegins body hbody hc ih =>
    have hname : (l.tokens[i + 1]?).filter (·.kind = .name) = some n := hname
    rw [dite_eq_ite] at hc
    have hturn : l.classTurn i t = some (none, max (body + 1) (i + 1)) := by
      simp only [classTurn, hbegins, hname, hbody, Option.map_some, hc]
    rw [headersFrom_of_turn ht hturn, ih]
    rfl
  | case5 i t ht name hother ih =>
    have hturn : l.classTurn i t = some (none, i + 1) := by
      unfold classTurn
      split
      · rename_i n hbegins hname
        exact absurd hname (hother n hbegins)
      · rfl
    rw [headersFrom_of_turn ht hturn, ih]
    rfl

/-- The classes of a file are read at their headers. -/
theorem classes_eq (l : TokenSequence) (source : Text) :
    l.classes source = (l.headersFrom 0).map (ClassHeader.read l source) :=
  classesFrom_eq l source 0

end TokenSequence

/-! ## §2 Where headers stand -/

/-- The header of a class stands before its body, whose braces pair. -/
structure ClassHeader.Stands (l : TokenSequence) (H : ClassHeader) : Prop where
  first : H.first + 2 ≤ H.body
  partner : l.partnerAt H.body = some H.close
  lt : H.body < H.close
  name : ∃ (k : Nat) (u : Token), l.tokens[k]? = some u ∧ u.kind = .name ∧ u.text = H.name

namespace TokenSequence

variable {l : TokenSequence} {i : Nat} {t : Token} {r : Option ClassHeader × Nat} {H : ClassHeader}

/-- What a turn finds stands where the turn does, and the walk goes on after it. -/
theorem stands_of_classTurn (hn : l.Nested) (hr : l.classTurn i t = some r) (hH : H ∈ r.1) :
    H.first = i ∧ H.Stands l ∧ r.2 = H.close + 1 := by
  unfold classTurn at hr
  split at hr
  · rename_i name _ hname
    obtain ⟨hname, hnamed⟩ := Option.filter_eq_some_iff.mp hname
    obtain ⟨body, hbody, rfl⟩ := Option.map_eq_some_iff.mp hr
    have hle := (le_of_findKind hbody).1
    cases hc : (if l.isKind body .openBrace = true then l.partnerAt body else none) with
    | none =>
      rw [hc] at hH
      cases hH
    | some close =>
      rw [hc] at hH
      obtain rfl := Option.some.inj hH
      split at hc
      · rename_i hbrace
        obtain ⟨v, hv, hvc⟩ := partnerAt_eq_some.mp hc
        have hkind : v.kind = .openBrace := by
          have := of_decide_eq_true hbrace
          rw [kindAt, hv] at this
          exact Option.some.inj this
        have hlt := hn.lt_partner hv (by rw [hkind]; rfl) hvc
        exact ⟨rfl, ⟨hle, hc, hlt, _, name, hname, of_decide_eq_true hnamed, rfl⟩,
          Nat.max_eq_left (by omega)⟩
      · cases hc
  · obtain rfl := Option.some.inj hr
    cases hH

theorem classTurn_le_size (hn : l.Nested) (ht : l.tokens[i]? = some t)
    (hr : l.classTurn i t = some r) : r.2 ≤ l.tokens.size := by
  have hi := (Array.getElem?_eq_some_iff.mp ht).1
  cases hH : r.1 with
  | some H =>
    obtain ⟨-, hstands, hnext⟩ := stands_of_classTurn hn hr hH
    have := hn.lt_size hstands.partner
    omega
  | none =>
    unfold classTurn at hr
    split at hr
    · obtain ⟨body, hbody, rfl⟩ := Option.map_eq_some_iff.mp hr
      have := (le_of_findKind hbody).2
      split at hH
      · cases hH
      · dsimp only
        omega
    · obtain rfl := Option.some.inj hr
      exact hi

/-- A header that is found from a token on stands there or later. -/
theorem stands_of_mem (hn : l.Nested) (hH : H ∈ l.headersFrom i) : i ≤ H.first ∧ H.Stands l := by
  fun_induction headersFrom l i with
  | case1 i htok => cases hH
  | case2 i t ht hr => cases hH
  | case3 i t ht r hr ih =>
    obtain hH | hH := List.mem_append.mp hH
    · obtain ⟨hfirst, hstands, -⟩ := stands_of_classTurn hn hr (Option.mem_toList.mp hH)
      exact ⟨by omega, hstands⟩
    · have := lt_classTurn hr
      exact ⟨by have := (ih hH).1; omega, (ih hH).2⟩

/-- Of two headers the class of the first is closed before the second. -/
theorem headersFrom_order (hn : l.Nested) (i : Nat) :
    (l.headersFrom i).Pairwise fun a b => a.close < b.first := by
  fun_induction headersFrom l i with
  | case1 i htok => exact .nil
  | case2 i t ht hr => exact .nil
  | case3 i t ht r hr ih =>
    refine List.pairwise_append.mpr ⟨?_, ih, fun a ha b hb => ?_⟩
    · cases r.1 <;> simp
    · obtain ⟨-, -, hnext⟩ := stands_of_classTurn hn hr (Option.mem_toList.mp ha)
      have := (stands_of_mem hn hb).1
      omega

end TokenSequence

/-! ## §3 Headers found again -/

/-- A header whose tokens are found again where `f` says. -/
def ClassHeader.carry (f : Nat → Nat) (H : ClassHeader) : ClassHeader :=
  ⟨H.name, f H.first, f H.body, f H.close⟩

namespace TokenSequence

variable {f : Nat → Nat} {x y d w : Nat} {s s' : Text} {l l' : TokenSequence} {i k n : Nat}
  {t : Token} {r : Option ClassHeader × Nat} {H : ClassHeader}

theorem Copied.beginsClass (h : Copied f x y d w s s' l l') (hx : x < i ∨ x = 0 ∧ d = 0) (hi : i < y) :
    l'.beginsClass (i + d) (t.carried f (fun _ => Span.shift w) i) = l.beginsClass i t := by
  unfold TokenSequence.beginsClass
  have hwords : (t.carried f (fun _ => Span.shift w) i).isOneOf classWords = t.isOneOf classWords := rfl
  rw [hwords]
  by_cases hzero : i = 0
  · have : i + d = 0 := by omega
    simp [hzero]
    omega
  · have hbefore : l'.tokens[i + d - 1]? =
        l.tokens[i - 1]?.map (Token.carried f (fun _ => Span.shift w) (i - 1)) := by
      rw [show i + d - 1 = i - 1 + d by omega]
      exact h.token (i - 1) (by omega) (by omega)
    have hzero' : i + d ≠ 0 := by omega
    rw [hbefore]
    cases l.tokens[i - 1]? with
    | none => simp
    | some v => simp [hzero, Token.carried, Token.isOneOf, Token.isWord]

/-- The word of a class, and what its header holds before the body, are found again. -/
theorem Copied.classTurn (h : Copied f x y d w s s' l l')
    (hx : x < i ∨ x = 0 ∧ d = 0) (hi : i < y)
    (hnext : l'.tokens[i + 1 + d]? =
      l.tokens[i + 1]?.map (Token.carried f (fun _ => Span.shift w) (i + 1)))
    (hr : l.classTurn i t = some r) (hbody : ∀ H ∈ r.1, H.body < y) (hnone : r.1 = none → r.2 ≤ y)
    (hsize : y + d ≤ l'.tokens.size) :
    ∃ r', l'.classTurn (i + d) (t.carried f (fun _ => Span.shift w) i) = some r' ∧
      r'.1 = r.1.map (ClassHeader.carry f) ∧
      (r.1 = none → r'.2 = r.2 + d) ∧ ∀ H ∈ r.1, r'.2 = max (f H.close + 1) (i + 1 + d) := by
  have hname : (l'.tokens[i + 1 + d]?).filter (·.kind = .name) =
      ((l.tokens[i + 1]?).filter (·.kind = .name)).map
        (Token.carried f (fun _ => Span.shift w) (i + 1)) := by
    rw [hnext]
    cases l.tokens[i + 1]? with
    | none => rfl
    | some v => by_cases hv : v.kind = .name <;> simp [Option.filter, Token.carried, hv]
  unfold TokenSequence.classTurn at hr ⊢
  rw [h.beginsClass hx hi, Nat.add_right_comm i d 1, hname, Nat.add_right_comm i d 2]
  split at hr
  · rename_i v hbegins hv
    obtain ⟨body, hfind, rfl⟩ := Option.map_eq_some_iff.mp hr
    have hle := (le_of_findKind hfind).1
    have hbodyy : body < y := by
      cases hc : (if l.isKind body .openBrace = true then l.partnerAt body else none) with
      | none =>
        rw [hc] at hnone
        have := hnone rfl
        dsimp only at this
        omega
      | some close =>
        rw [hc] at hbody
        exact hbody _ rfl
    have hfind' := h.findKind (by omega) hfind hbodyy (show body + d < l'.tokens.size by omega)
    have hcond : (if l'.isKind (body + d) .openBrace = true then l'.partnerAt (body + d) else none) =
        (if l.isKind body .openBrace = true then l.partnerAt body else none).map f := by
      rw [h.isKind (by omega) hbodyy, h.partnerAt (by omega) hbodyy]
      split <;> rfl
    rw [hbegins, hv, Option.map_some]
    dsimp only
    rw [hfind', Option.map_some, hcond]
    cases hc : (if l.isKind body .openBrace = true then l.partnerAt body else none) with
    | none =>
      rw [hc] at hnone
      refine ⟨_, rfl, rfl, fun _ => ?_, fun H hH => by cases hH⟩
      simp only [Option.map_none]
      omega
    | some close =>
      refine ⟨_, rfl, ?_, nofun, fun H hH => ?_⟩
      · simp only [Option.map_some, ClassHeader.carry, Token.carried]
        rw [h.inside i (by omega) hi, h.inside body (by omega) hbodyy]
      · obtain rfl := Option.some.inj hH
        rfl
  · rename_i hother
    obtain rfl := Option.some.inj hr
    refine ⟨(none, i + 1 + d), ?_, rfl, fun _ => rfl, fun H hH => by cases hH⟩
    split
    · rename_i v hbegins hv
      obtain ⟨v₀, hv₀, rfl⟩ := Option.map_eq_some_iff.mp hv
      exact absurd hv₀ (hother v₀ hbegins)
    · rfl

/-- Where no class can follow, none can in the other source. -/
theorem Copied.classTurn_eq_none (h : Copied f x y d w s s' l l') (hx : x < i ∨ x = 0 ∧ d = 0)
    (hi : i < y)
    (hnext : l'.tokens[i + 1 + d]? =
      l.tokens[i + 1]?.map (Token.carried f (fun _ => Span.shift w) (i + 1)))
    (hr : l.classTurn i t = none) (hy : l.tokens.size = y) (hsize : l'.tokens.size = y + d) :
    l'.classTurn (i + d) (t.carried f (fun _ => Span.shift w) i) = none := by
  have hname : (l'.tokens[i + 1 + d]?).filter (·.kind = .name) =
      ((l.tokens[i + 1]?).filter (·.kind = .name)).map
        (Token.carried f (fun _ => Span.shift w) (i + 1)) := by
    rw [hnext]
    cases l.tokens[i + 1]? with
    | none => rfl
    | some v => by_cases hv : v.kind = .name <;> simp [Option.filter, Token.carried, hv]
  unfold TokenSequence.classTurn at hr ⊢
  rw [h.beginsClass hx hi, Nat.add_right_comm i d 1, hname, Nat.add_right_comm i d 2]
  split at hr
  · rename_i v hbegins hv
    rw [hbegins, hv, Option.map_some]
    dsimp only
    rw [hsize, h.findKind_eq_none (by omega) (hy ▸ Option.map_eq_none_iff.mp hr) (Nat.le_refl y)]
    rfl
  · cases hr

end TokenSequence

namespace TokenSequence.Around

variable {f : Nat → Nat} {x y d w : Nat} {s s' : Text} {l l' : TokenSequence} {i : Nat} {H : ClassHeader}

/-- The headers after the stretch. -/
theorem headersFrom_after (h : Around f x y d w s s' l l') (hi : y < i) :
    l'.headersFrom (i + d) = (l.headersFrom i).map (ClassHeader.carry f) := by
  have hcopied := h.after
  have hsize := h.size
  have htoken : ∀ j, y ≤ j → l'.tokens[j + d]? =
      l.tokens[j]?.map (Token.carried f (fun _ => Span.shift w) j) := by
    intro j hj
    by_cases hlt : j < l.tokens.size
    · exact hcopied.token j hj hlt
    · have hnone : l.tokens[j]? = none := Array.getElem?_eq_none (by omega)
      rw [hnone, Array.getElem?_eq_none (by omega)]
      rfl
  fun_induction headersFrom l i with
  | case1 i htok =>
    rw [headersFrom_of_none (by rw [htoken i (by omega), htok]; rfl)]
    rfl
  | case2 i t ht hr =>
    have hlt := (Array.getElem?_eq_some_iff.mp ht).1
    have ht' := htoken i (by omega)
    rw [ht, Option.map_some] at ht'
    rw [headersFrom_of_stop ht' (hcopied.classTurn_eq_none (.inl hi) hlt (htoken (i + 1) (by omega)) hr
      rfl hsize)]
    rfl
  | case3 i t ht r hr ih =>
    have hlt := (Array.getElem?_eq_some_iff.mp ht).1
    have hir := lt_classTurn hr
    have ht' := htoken i (by omega)
    rw [ht, Option.map_some] at ht'
    have hstands : ∀ H ∈ r.1, H.first = i ∧ H.Stands l ∧ r.2 = H.close + 1 :=
      fun H hH => stands_of_classTurn h.nested hr hH
    obtain ⟨r', hr', hfound, hnext, hclose⟩ := hcopied.classTurn (.inl hi) hlt
      (htoken (i + 1) (by omega)) hr
      (fun H hH => by
        have := h.nested.lt_size (hstands H hH).2.1.partner
        have := (hstands H hH).2.1.lt
        omega)
      (fun _ => classTurn_le_size h.nested ht hr) (by omega)
    have hrest : r'.2 = r.2 + d := by
      cases hH : r.1 with
      | none => exact hnext hH
      | some H =>
        obtain ⟨hfirst, hst, hnxt⟩ := hstands H hH
        have := hst.first
        have := hst.lt
        have := h.nested.lt_size hst.partner
        rw [hclose H hH, hcopied.inside H.close (by omega) (by omega), hnxt]
        omega
    rw [headersFrom_of_turn ht' hr', hfound, hrest, ih (by omega), List.map_append]
    cases r.1 <;> rfl

/-- A turn that is over before the stretch, or that finds a header with its brace before it. -/
theorem classTurn_before (h : Around f x y d w s s' l l') {i : Nat} {t : Token}
    {r : Option ClassHeader × Nat} (ht : l.tokens[i]? = some t) (hr : l.classTurn i t = some r)
    (hi : i + 1 < x) (hbody : ∀ H ∈ r.1, H.body < x) (hnone : r.1 = none → r.2 < x) :
    ∃ r', (∃ t', l'.tokens[i]? = some t' ∧ l'.classTurn i t' = some r') ∧
      r'.1 = r.1.map (ClassHeader.carry f) ∧ r'.2 = f (r.2 - 1) + 1 := by
  have hcopied := h.before
  have hle := hcopied.size
  have hsize := h.size
  have ht' := hcopied.token i (Nat.zero_le i) (by omega)
  rw [Nat.add_zero, ht, Option.map_some] at ht'
  obtain ⟨r', hr', hfound, hnext, hclose⟩ := hcopied.classTurn (t := t) (r := r) (i := i) (by omega)
    (by omega) (hcopied.token (i + 1) (Nat.zero_le _) hi) hr hbody (fun hn => (hnone hn).le) (by omega)
  refine ⟨r', ⟨_, ht', hr'⟩, hfound, ?_⟩
  have hlt := lt_classTurn hr
  cases hH : r.1 with
  | none =>
    have := hnone hH
    rw [hnext hH, hcopied.inside (r.2 - 1) (Nat.zero_le _) (by omega)]
    omega
  | some H =>
    obtain ⟨hfirst, hstands, hnxt⟩ := stands_of_classTurn h.nested hr hH
    have := hstands.first
    have := hstands.lt
    have hi' : i ≤ f H.close := by
      by_cases hx : H.close < x
      · rw [hcopied.inside H.close (Nat.zero_le _) hx]
        omega
      · have := hcopied.above H.close (by omega)
        omega
    rw [hclose H hH, hnxt, Nat.add_sub_cancel]
    omega

/-- When the stretch stands in the body of a class, the headers stay where they are or move on. -/
theorem headersFrom_carry (h : Around f x y d w s s' l l') {i : Nat} (hH : H ∈ l.headersFrom i)
    (hbody : H.body < x) (hclose : y ≤ H.close) :
    l'.headersFrom i = (l.headersFrom i).map (ClassHeader.carry f) := by
  fun_induction headersFrom l i with
  | case1 i htok => cases hH
  | case2 i t ht hr => cases hH
  | case3 i t ht r hr ih =>
    have hlt := lt_classTurn hr
    rw [List.mem_append] at hH
    obtain hH | hH := hH
    · -- the turn finds the class that holds the stretch
      have hH := Option.mem_toList.mp hH
      obtain ⟨hfirst, hstands, hnext⟩ := stands_of_classTurn h.nested hr hH
      have := hstands.first
      have hsize := h.nested.lt_size hstands.partner
      obtain ⟨r', ⟨t', ht', hr'⟩, hfound, hrest⟩ := h.classTurn_before ht hr (by omega)
        (fun H' hH' => by rw [hH] at hH'; cases hH'; exact hbody) (fun hn => by rw [hH] at hn; cases hn)
      rw [headersFrom_of_turn ht' hr', hfound, hrest, hnext, Nat.add_sub_cancel,
        h.after.inside H.close hclose hsize, Nat.add_right_comm, h.headersFrom_after (by omega),
        List.map_append]
      cases r.1 <;> rfl
    · have hbegins := stands_of_mem h.nested hH
      have := hbegins.2.first
      obtain ⟨r', ⟨t', ht', hr'⟩, hfound, hrest⟩ := h.classTurn_before ht hr (by omega)
        (fun H' hH' => by
          obtain ⟨-, hstands', hnext'⟩ := stands_of_classTurn h.nested hr hH'
          have := hstands'.lt
          omega)
        (fun _ => by omega)
      rw [h.before.inside (r.2 - 1) (Nat.zero_le _) (by omega), Nat.add_zero,
        Nat.sub_add_cancel (by omega)] at hrest
      rw [headersFrom_of_turn ht' hr', hfound, hrest, ih hH, List.map_append]
      cases r.1 <;> rfl

end TokenSequence.Around

end Crosslink.Source
