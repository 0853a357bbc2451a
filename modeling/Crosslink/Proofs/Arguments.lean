import Crosslink.Proofs.Ranges

/-!
# Arguments of two sources

When some pieces are put into a source, an argument of another list says what it said before, or it
holds the place, and then it holds brackets and could not be read either way.

* §1 The words of an argument that is read.
* §2 `Inserted.argument_text`, what the arguments of other lists say.
-/

namespace Crosslink.Source

open TokenSequence

variable {source source' : Text} {l l' : TokenSequence} {x c : Nat} {s : Nat × Nat}

/-! ## 1. The words of an argument -/

theorem exists_token_of_lt {i c : Nat} (hc : l.kindAt c ≠ none) (h : i ≤ c) :
    ∃ t, l.tokens[i]? = some t := by
  refine ⟨_, Array.getElem?_eq_getElem (h := ?_)⟩
  have : c < l.tokens.size := by
    by_cases hlt : c < l.tokens.size
    · exact hlt
    · exact absurd (by simp [kindAt, Array.getElem?_eq_none (Nat.le_of_not_lt hlt)]) hc
  omega

/-- A slot whose argument is read holds the words it is written with, and no other tokens. -/
theorem words_of_slot (h : tokenize source = .ok l) (hc : l.partnerAt x = some c) (hxc : x < c)
    (hs : s ∈ l.slots x) {e : Expression}
    (he : Expression.parse (l.argumentIn source s).text = .ok e) :
    ∃ ws, e.Written ws ∧ ws.length = s.2 + 1 - s.1 ∧
      ∀ j, j < ws.length → l.wordAt (s.1 + j) = ws[j]? := by
  have hl := nested_of_tokenize h
  have hslot := hl.slotOf hc hxc hs
  obtain ⟨o, d, -, hd, hopens, hcloses, openers, hopeners, -⟩ := hl.kinds_of_partner hc hxc
  have hclose := hslot.close
  obtain ⟨u, hu⟩ := exists_token_of_lt (l := l) (c := c) (by simp [hd])
    (Nat.le_trans hslot.le (Nat.le_of_lt hclose))
  obtain ⟨v, hv⟩ := exists_token_of_lt (l := l) (c := c) (by simp [hd]) (Nat.le_of_lt hclose)
  refine words_of_parse h hslot.le hu hv he fun w hw => ?_
  obtain hend | hcomma := hslot.next
  · rw [hend] at hw
    have hkind : d = w.kind := by
      rw [kindAt, hw] at hd
      exact (Option.some.inj hd).symm
    rw [← hkind]
    cases d <;> first | rfl | (simp [TokenKind.closes] at hopeners)
  · have hkind : w.kind = .comma := by
      rw [isKind, kindAt, hw] at hcomma
      simpa using hcomma
    rw [hkind]
    rfl

/-- An argument that is read holds words of arguments only. -/
theorem kindAt_of_slot (h : tokenize source = .ok l) (hc : l.partnerAt x = some c) (hxc : x < c)
    (hs : s ∈ l.slots x) {e : Expression}
    (he : Expression.parse (l.argumentIn source s).text = .ok e) {i : Nat} (hi : s.1 ≤ i)
    (his : i ≤ s.2) : ∃ kind ∈ operandKinds, l.kindAt i = some kind := by
  obtain ⟨ws, hwritten, hlen, hws⟩ := words_of_slot h hc hxc hs he
  have hj : i - s.1 < ws.length := by omega
  have hword := hws (i - s.1) hj
  rw [show s.1 + (i - s.1) = i by omega, List.getElem?_eq_getElem hj] at hword
  obtain ⟨t, ht, hw⟩ := Option.map_eq_some_iff.mp hword
  refine ⟨t.kind, ?_, by rw [kindAt, ht]; rfl⟩
  have := hwritten.kinds _ (List.getElem_mem hj)
  rw [← hw] at this
  exact this

/-- An argument that holds a bracket is not read. -/
theorem parse_ne_ok_of_bracket (h : tokenize source = .ok l) (hc : l.partnerAt x = some c)
    (hxc : x < c) (hs : s ∈ l.slots x) {y z : Nat} (hyz : l.partnerAt y = some z) (hy : s.1 ≤ y)
    (hys : y ≤ s.2) (e : Expression) : Expression.parse (l.argumentIn source s).text ≠ .ok e := by
  intro he
  have hl := nested_of_tokenize h
  obtain ⟨kind, hmem, hkind⟩ := kindAt_of_slot h hc hxc hs he hy hys
  obtain ⟨t, ht, htz⟩ := partnerAt_eq_some.mp hyz
  obtain ⟨u, hu, -, ⟨-, hopens, -⟩ | ⟨-, -, -, openers, hcloses, -⟩⟩ := hl.pair y t z ht htz
  all_goals
    rw [kindAt, ht] at hkind
    obtain rfl := Option.some.inj hkind
    simp only [operandKinds, List.mem_cons, List.not_mem_nil, or_false] at hmem
    obtain hk | hk | hk | hk | hk := hmem <;> simp_all [TokenKind.opens, TokenKind.closes]

/-! ## 2. Arguments of two sources -/

namespace Inserted

variable {k n : Nat} {block : Array Token} {a m b : Text}

/-- An argument on one side of the place says what it said before. -/
theorem argument_text_of_side (h : Inserted k n block a m l l') {f t : Nat}
    (hft : f ≤ t) (ht : t < l.tokens.size) (hside : t < k ∨ k ≤ f) :
    (l'.argument (a ++ (m ++ b)) (lift k n f) (lift k n t)).text =
      (l.argument (a ++ b) f t).text := by
  obtain ⟨u, hu⟩ : ∃ u, l.tokens[f]? = some u := ⟨_, Array.getElem?_eq_getElem (by omega)⟩
  obtain ⟨v, hv⟩ : ∃ v, l.tokens[t]? = some v := ⟨_, Array.getElem?_eq_getElem ht⟩
  simp only [argument, stopAt, Span.slice, h.outside f, h.outside t, hu, hv, Option.map_some,
    Option.getD_some, Token.carried, move]
  obtain hside | hside := hside
  · have hstop := h.early t v hside hv
    rw [if_pos (by omega), if_pos hside, Text.slice_append_of_le hstop,
      Text.slice_append_of_le hstop]
  · have hstart := h.late f u hside hu
    obtain ⟨p, hp⟩ := Nat.exists_eq_add_of_le hstart
    have hmoved : Text.after (Text.width a + p + Text.width m) (a ++ (m ++ b)) = Text.after p b := by
      rw [← List.append_assoc, ← Text.after_width_add (a ++ m) b p, Text.width_append,
        Nat.add_right_comm]
    rw [if_neg (by omega), if_neg (by omega)]
    simp only [Span.shift, Text.slice, hp, hmoved, Text.after_width_add]
    rw [Nat.add_sub_add_right]

/-- The arguments of the other lists say what they said before, except for those that hold the place
and could not be read before or after. -/
theorem argument_text (h : Inserted k n block a m l l') (hs : tokenize (a ++ b) = .ok l)
    (hs' : tokenize (a ++ (m ++ b)) = .ok l') {x y : Nat} (hh : Host l k x y)
    (hjoins : k = y + 1 → Joins l' k n) {o : Nat} (ho : o = x → k = y + 1) {s : Nat × Nat}
    (hmem : s ∈ l.slots o) :
    (l'.argumentIn (a ++ (m ++ b)) (carrySlot k n s)).text = (l.argumentIn (a ++ b) s).text ∨
      (∀ e, Expression.parse (l.argumentIn (a ++ b) s).text ≠ .ok e) ∧
        ∀ e, Expression.parse (l'.argumentIn (a ++ (m ++ b)) (carrySlot k n s)).text ≠ .ok e := by
  cases hc : l.partnerAt o with
  | none => simp [slots, hc] at hmem
  | some c =>
    have hoc : o < c := by
      by_cases hlt : o < c
      · exact hlt
      · rw [slots_of_le hc (by omega)] at hmem
        cases hmem
    have hslot := h.nested.slotOf hc hoc hmem
    have hle := hslot.le
    have hclose := hslot.close
    by_cases hside : s.1 < k ∧ k ≤ s.2 + 1
    · obtain ⟨hsx, hxs⟩ := hh.holds h.nested hc hoc ho hmem hside.1 hside.2
      have hxk := hh.lt
      refine .inr ⟨parse_ne_ok_of_bracket hs hc hoc hmem hh.pair hsx hxs, ?_⟩
      have hmem' : carrySlot k n s ∈ l'.slots (lift k n o) := by
        rw [h.slots_lift hh hjoins ho]
        exact List.mem_map_of_mem hmem
      have hc' : l'.partnerAt (lift k n o) = some (lift k n c) := by rw [h.partnerAt_lift, hc]; rfl
      have hxy' : l'.partnerAt x = some (lift k n y) := by
        rw [← lift_of_lt (n := n) hxk, h.partnerAt_lift, hh.pair]
        rfl
      have hlast : s.2 + 1 ≤ lift k n (s.2 + 1) := by
        unfold lift
        split <;> omega
      refine parse_ne_ok_of_bracket hs' hc' (lift_lt_lift.mpr hoc) hmem' hxy' ?_ ?_
      · rw [carrySlot, lift_of_lt hside.1]
        exact hsx
      · rw [carrySlot]
        omega
    · have hsize : s.2 < l.tokens.size := by
        obtain ⟨_, d, -, hd, -⟩ := h.nested.kinds_of_partner hc hoc
        obtain ⟨t, ht⟩ := exists_token_of_lt (l := l) (c := c) (by simp [hd]) (Nat.le_of_lt hclose)
        exact (Array.getElem?_eq_some_iff.mp ht).1
      have hcarry : carrySlot k n s = (lift k n s.1, lift k n s.2) := by
        rw [carrySlot]
        unfold lift
        split <;> split <;> split <;> simp only [Prod.mk.injEq, true_and] <;> omega
      rw [hcarry]
      exact .inl (h.argument_text_of_side hle hsize (by omega))

end Inserted

end Crosslink.Source
