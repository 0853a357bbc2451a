import Crosslink.Proofs.Grammar
import Crosslink.Proofs.Places

/-!
# Strings as tokens and as operands

A string is found twice: as a token of the source, where every backslash takes the next character
along, and as an operand of an argument, where only some escapes mean something. Both end at the same
quote, because a character that a backslash takes along is no quote unless the operand has an escape
for it. So a string token in single quotes is always one operand, and one in double quotes is when
nothing in it would be interpolated.

* §1 `Quoted`, what stands between the quotes of a token.
* §2 `units`, the escape pairs of a text, and what it takes to be an operand.
* §3 `parse_double_iff` and `ne_ok_of_head`, strings that are read and strings that are not.

## Main statements

* `literal_exact`: which string tokens are arguments, and of what form.
-/

namespace Crosslink.Source

open Expression

variable {q c : Char} {t u v w w' r r' cs : Text} {n : Nat}

/-! ## §1 Between the quotes -/

/-- What stands between two quotes: backslashes with the character after them, and other characters
that are no quotes. -/
inductive Quoted (q : Char) : Text → Prop
  | nil : Quoted q []
  | pair {c : Char} {w : Text} (rest : Quoted q w) : Quoted q ('\\' :: c :: w)
  | plain {c : Char} {w : Text} (slash : c ≠ '\\') (quote : c ≠ q) (rest : Quoted q w) :
      Quoted q (c :: w)

theorem Quoted.quotedLength_append (h : Quoted q w) (hq : q ≠ '\\') (r : Text) :
    quotedLength q (w ++ q :: r) = some (w.length + 1) := by
  induction h with
  | nil => rw [List.nil_append, quotedLength_cons hq, if_pos rfl, List.length_nil]
  | @pair c w rest ih => simp [quotedLength, ih]
  | @plain c w slash quote rest ih =>
    rw [List.cons_append, quotedLength_cons slash, if_neg quote, ih]
    rfl

/-- A string that ends is closed by a quote after what may stand between quotes. -/
theorem quoted_of_quotedLength (h : quotedLength q t = some n) :
    ∃ w r, t = w ++ q :: r ∧ n = w.length + 1 ∧ Quoted q w := by
  fun_induction quotedLength q t generalizing n with
  | case1 => cases h
  | case2 => cases h
  | case3 c cs ih =>
    obtain ⟨m, hm, rfl⟩ := Option.map_eq_some_iff.mp h
    obtain ⟨w, r, rfl, rfl, hw⟩ := ih hm
    exact ⟨_, r, rfl, rfl, .pair hw⟩
  | case4 cs hend hmore =>
    obtain rfl : 1 = n := Option.some.inj h
    exact ⟨[], cs, rfl, rfl, .nil⟩
  | case5 c cs hend hmore hne ih =>
    obtain ⟨m, hm, rfl⟩ := Option.map_eq_some_iff.mp h
    obtain ⟨w, r, rfl, rfl, hw⟩ := ih hm
    have hslash : c ≠ '\\' := by
      rintro rfl
      cases w <;> exact hmore _ _ rfl rfl
    exact ⟨_, r, rfl, rfl, .plain hslash hne hw⟩

/-- Only one quote can be the closing one. -/
theorem Quoted.append_inj (h : Quoted q w) (h' : Quoted q w') (hq : q ≠ '\\')
    (heq : w ++ q :: r = w' ++ q :: r') : w = w' ∧ r = r' := by
  have hlength := h.quotedLength_append hq r
  rw [heq, h'.quotedLength_append hq r'] at hlength
  obtain ⟨hw, hr⟩ := List.append_inj heq (by have := Option.some.inj hlength; omega)
  exact ⟨hw, (List.cons.inj hr).2⟩

/-! ## §2 Escape pairs -/

/-- A text divided into its escape pairs, each a backslash with the character after it, and the
characters that belong to none. -/
def units : Text → List Text
  | [] => []
  | '\\' :: c :: cs => ['\\', c] :: units cs
  | c :: cs => [c] :: units cs

theorem units_cons (h : c ≠ '\\') (cs : Text) : units (c :: cs) = [c] :: units cs := by
  rw [units]
  rintro _ _ rfl
  exact absurd rfl h

theorem Quoted.units_append (h : Quoted q w) (r : Text) : units (w ++ r) = units w ++ units r := by
  induction h with
  | nil => rfl
  | pair rest ih => rw [List.cons_append, List.cons_append, units, units, ih, List.cons_append]
  | plain slash quote rest ih =>
    rw [List.cons_append, units_cons slash, units_cons slash, ih, List.cons_append]

/-- Every dollar sign of a text directly follows the backslash of an escape pair. -/
def DollarsEscaped (t : Text) : Prop := ∀ u ∈ units t, '$' ∈ u → u = ['\\', '$']

instance (t : Text) : Decidable (DollarsEscaped t) :=
  inferInstanceAs (Decidable (∀ u ∈ units t, _ → _))

theorem dollarsEscaped_pair : DollarsEscaped ('\\' :: c :: w) ↔ DollarsEscaped w := by
  have hpair : '$' ∈ ['\\', c] → ['\\', c] = ['\\', '$'] := by
    intro h
    obtain rfl : '$' = c := by simpa using h
    rfl
  simp only [DollarsEscaped, units, List.forall_mem_cons]
  exact ⟨And.right, fun h => ⟨hpair, h⟩⟩

theorem dollarsEscaped_cons (h : c ≠ '\\') :
    DollarsEscaped (c :: w) ↔ c ≠ '$' ∧ DollarsEscaped w := by
  have hplain : ('$' ∈ [c] → [c] = ['\\', '$']) ↔ c ≠ '$' := by
    simp [eq_comm]
  simp only [DollarsEscaped, units_cons h, List.forall_mem_cons, hplain]

/-- The quotes of a string are no dollar signs. -/
theorem Quoted.dollarsEscaped_iff (h : Quoted '"' w) :
    DollarsEscaped ('"' :: (w ++ ['"'])) ↔ DollarsEscaped w := by
  have hclosing : ∀ u ∈ units ['"'], '$' ∈ u → u = ['\\', '$'] := by decide
  rw [dollarsEscaped_cons (by decide), DollarsEscaped, h.units_append]
  simp only [List.mem_append, or_imp, forall_and]
  exact ⟨fun hall => hall.2.1, fun hall => ⟨by decide, hall, hclosing⟩⟩

/-- Whatever stands between single quotes means something. -/
theorem Quoted.exists_single (h : Quoted '\'' w) : ∃ v, SingleQuoted w v := by
  induction h with
  | nil => exact ⟨[], .nil⟩
  | @pair c w rest ih =>
    obtain ⟨v, hv⟩ := ih
    by_cases hslash : c = '\\'
    · subst hslash
      exact ⟨_, .backslash hv⟩
    by_cases hquote : c = '\''
    · subst hquote
      exact ⟨_, .quote hv⟩
    · exact ⟨_, .lone hslash hquote (.plain hslash hquote hv)⟩
  | plain slash quote rest ih =>
    obtain ⟨v, hv⟩ := ih
    exact ⟨_, .plain slash quote hv⟩

theorem DoubleQuoted.quoted (h : DoubleQuoted w v) : Quoted '"' w := by
  induction h with
  | nil => exact .nil
  | escaped mark rest ih => exact .pair ih
  | newline rest ih => exact .pair ih
  | tab rest ih => exact .pair ih
  | other mark rest ih => exact .pair ih
  | plain mark rest ih =>
    simp only [List.mem_cons, List.not_mem_nil, or_false, not_or] at mark
    exact .plain mark.1 mark.2.1 ih

theorem DoubleQuoted.dollarsEscaped (h : DoubleQuoted w v) : DollarsEscaped w := by
  induction h with
  | nil => simp [DollarsEscaped, units]
  | escaped mark rest ih => exact dollarsEscaped_pair.mpr ih
  | newline rest ih => exact dollarsEscaped_pair.mpr ih
  | tab rest ih => exact dollarsEscaped_pair.mpr ih
  | other mark rest ih => exact dollarsEscaped_pair.mpr ih
  | plain mark rest ih =>
    simp only [List.mem_cons, List.not_mem_nil, or_false, not_or] at mark
    exact (dollarsEscaped_cons mark.1).mpr ⟨mark.2.2, ih⟩

/-- What stands between double quotes means something unless a dollar sign stands by itself. -/
theorem Quoted.exists_double (h : Quoted '"' w) (hdollars : DollarsEscaped w) :
    ∃ v, DoubleQuoted w v := by
  induction h with
  | nil => exact ⟨[], .nil⟩
  | @pair c w rest ih =>
    obtain ⟨v, hv⟩ := ih (dollarsEscaped_pair.mp hdollars)
    exact ⟨_, hv.escape c⟩
  | plain slash quote rest ih =>
    obtain ⟨hdollar, hdollars⟩ := (dollarsEscaped_cons slash).mp hdollars
    obtain ⟨v, hv⟩ := ih hdollars
    exact ⟨_, .plain (by simp [slash, quote, hdollar]) hv⟩

/-! ## §3 Strings as arguments -/

/-- An operand by itself is an argument. -/
theorem parse_of_atom {a : Atom} (h : a.Derived t) : parse t = .ok ⟨none, [a]⟩ :=
  parse_of_spelled ⟨[], t, [], by simp [Gap], by simp [Gap], by simp, .bare (.one h)⟩

/-- What a text that begins with no blank must begin with to be an argument: an operand, or the
identifier of a label. -/
theorem exists_head_of_parse {e : Expression} (h : parse (c :: cs) = .ok e) (hc : isGap c = false) :
    isIdentChar c = true ∨ ∃ u g as, Gap g ∧ c :: cs = u ++ g ∧ Operands u as ∧ e = ⟨none, as⟩ := by
  obtain ⟨g, u, g', hg, hg', heq, hu⟩ := spelled_of_parse h
  obtain rfl : g = [] := by
    cases g with
    | nil => rfl
    | cons d g =>
      obtain rfl : c = d := (List.cons.inj heq).1
      rw [hg c (by simp)] at hc
      cases hc
  cases hu with
  | bare operands => exact .inr ⟨u, g', _, hg', heq, operands, rfl⟩
  | @labelled i _ _ _ _ ident =>
    obtain ⟨d, ds, rfl⟩ := List.exists_cons_of_ne_nil ident.nonempty
    obtain rfl : c = d := (List.cons.inj heq).1
    exact .inl (ident.chars c (by simp))

/-- No argument begins with a backtick or a less-than sign. -/
theorem ne_ok_of_head (h : c = '\x60' ∨ c = '<') (e : Expression) : parse (c :: cs) ≠ .ok e := by
  intro hparse
  have hnone : isGap c = false ∧ isIdentChar c = false ∧ c ∉ ['\'', '"', '\\'] := by
    rcases h with rfl | rfl <;> decide +kernel
  have hident : ¬ isIdentChar c = true := by simp [hnone.2.1]
  obtain hchar | ⟨u, g, as, -, heq, hu, -⟩ := exists_head_of_parse hparse hnone.1
  · exact hident hchar
  · obtain ⟨d, ds, rfl, hd⟩ := hu.head
    obtain rfl : c = d := (List.cons.inj heq).1
    exact hd.elim hident hnone.2.2

/-- An operand that begins with a double quote is a text in double quotes. -/
theorem Atom.Derived.exists_double {a : Atom} (h : a.Derived ('"' :: t)) :
    ∃ w v, t = w ++ ['"'] ∧ DoubleQuoted w v ∧ a = .literal v := by
  generalize hu : '"' :: t = u at h
  cases h with
  | single => cases hu
  | double body => exact ⟨_, _, (List.cons.inj hu).2, body, rfl⟩
  | constant name =>
    obtain ⟨d, ds, rfl, hd⟩ := name.head
    obtain rfl : '"' = d := (List.cons.inj hu).1
    rcases hd with hd | hd
    · rw [isIdentChar_of_mark (by simp)] at hd
      cases hd
    · cases hd

/-- An argument that begins with a double quote begins with a text in double quotes, and is nothing
else when nothing comes after that. -/
theorem exists_double_of_parse {e : Expression} (h : parse ('"' :: cs) = .ok e) :
    ∃ w v r, cs = w ++ '"' :: r ∧ DoubleQuoted w v ∧ (r = [] → e = ⟨none, [.literal v]⟩) := by
  obtain hident | ⟨u, g, as, -, heq, hu, rfl⟩ := exists_head_of_parse h (by decide)
  · rw [isIdentChar_of_mark (by simp)] at hident
    cases hident
  · obtain ⟨d, ds, rfl, -⟩ := hu.head
    obtain ⟨rfl, rfl⟩ := List.cons.inj heq
    generalize hv : '"' :: ds = u at hu
    cases hu with
    | one atom =>
      obtain ⟨w, v, rfl, hw, rfl⟩ := (hv ▸ atom).exists_double
      exact ⟨w, v, g, by simp, hw, fun _ => rfl⟩
    | @more t g₁ g₂ u' a as atom gap gap' rest =>
      obtain ⟨d, ts, rfl, -⟩ := (Operands.one atom).head
      obtain ⟨rfl, rfl⟩ := List.cons.inj hv
      obtain ⟨w, v, rfl, hw, rfl⟩ := atom.exists_double
      exact ⟨w, v, g₁ ++ '.' :: (g₂ ++ (u' ++ g)), by simp, hw, fun hnil => by simp at hnil⟩

/-- A string in double quotes is an argument unless a dollar sign stands by itself, and then it is one
quoted text. -/
theorem parse_double_iff (h : Quoted '"' w) (e : Expression) :
    parse ('"' :: (w ++ ['"'])) = .ok e ↔
      ∃ v, DoubleQuoted w v ∧ e = ⟨none, [.literal v]⟩ := by
  constructor
  · intro hparse
    obtain ⟨w', v, r, heq, hw', he⟩ := exists_double_of_parse hparse
    obtain ⟨rfl, rfl⟩ := h.append_inj hw'.quoted (by decide) heq
    exact ⟨v, hw', he rfl⟩
  · rintro ⟨v, hv, rfl⟩
    exact parse_of_atom (.double hv)

/-- What a string token begins with, and where it ends. -/
theorem measure_of_string (h : (measure c cs).1 = .token .string) :
    ((c = '\'' ∨ c = '"' ∨ c = '\x60') ∧ quotedLength c cs = some (measure c cs).2) ∨
      (c = '<' ∧ cs.take 2 = ['<', '<'] ∧ 2 ≤ (measure c cs).2) := by
  revert h
  fun_cases measure c cs <;> intro h <;> grind

variable {source : Text} {l : TokenSequence} {x : Token}

/-- A string token stands between two quotes, or it begins like a text between two lines. -/
theorem text_of_string (h : tokenize source = .ok l) (hx : x ∈ l.tokens) (hkind : x.kind = .string) :
    (∃ q w, q ∈ ['\'', '"', '\x60'] ∧ x.text = q :: (w ++ [q]) ∧ Quoted q w) ∨
      "<<<".toList <+: x.text := by
  obtain ⟨i, hi⟩ := Array.mem_iff_getElem?.mp hx
  obtain ⟨c, cs, hmeasure, htext⟩ := exists_measure h hi
  rw [hkind] at hmeasure
  obtain ⟨hquote, hlength⟩ | ⟨rfl, hmarks, hle⟩ := measure_of_string hmeasure
  · obtain ⟨w, r, rfl, hn, hw⟩ := quoted_of_quotedLength hlength
    refine .inl ⟨c, w, by simpa using hquote, ?_, hw⟩
    rw [htext, hn, List.take_length_add_append, List.take_succ_cons, List.take_zero]
  · refine .inr ?_
    have hprefix : ['<', '<'] <+: cs.take (measure '<' cs).2 :=
      hmarks ▸ List.take_prefix_take_left hle
    rw [htext]
    exact (List.prefix_cons_inj '<').mpr hprefix

/-- A string token in single quotes is always an argument, one quoted text. One in double quotes is an
argument exactly if every dollar sign in it is escaped, and then it is one quoted text as well. A string
between backticks, and a text between two lines with a label, is none. There are no other strings. -/
theorem literal_exact (h : tokenize source = .ok l) (hx : x ∈ l.tokens) (hkind : x.kind = .string) :
    (x.text.head? = some '\'' → ∃ v, parse x.text = .ok ⟨none, [.literal v]⟩) ∧
      (x.text.head? = some '"' →
        ((∃ e, parse x.text = .ok e) ↔ DollarsEscaped x.text) ∧
          ∀ e, parse x.text = .ok e → ∃ v, e = ⟨none, [.literal v]⟩) ∧
      (x.text.head? = some '\x60' ∨ "<<<".toList <+: x.text → ∀ e, parse x.text ≠ .ok e) ∧
      (x.text.head? ∈ ['\'', '"', '\x60'].map some ∨ "<<<".toList <+: x.text) := by
  obtain ⟨q, w, hq, htext, hw⟩ | hlabelled := text_of_string h hx hkind
  · rw [htext]
    simp only [List.mem_cons, List.not_mem_nil, or_false] at hq
    obtain rfl | rfl | rfl := hq
    · obtain ⟨v, hv⟩ := hw.exists_single
      refine ⟨fun _ => ⟨v, parse_of_atom (.single hv)⟩, by simp, by simp, by simp⟩
    · refine ⟨by simp, fun _ => ⟨?_, fun e he => ?_⟩, by simp, by simp⟩
      · rw [hw.dollarsEscaped_iff]
        constructor
        · rintro ⟨e, he⟩
          obtain ⟨v, hv, -⟩ := (parse_double_iff hw e).mp he
          exact hv.dollarsEscaped
        · intro hdollars
          obtain ⟨v, hv⟩ := hw.exists_double hdollars
          exact ⟨_, (parse_double_iff hw _).mpr ⟨v, hv, rfl⟩⟩
      · obtain ⟨v, -, rfl⟩ := (parse_double_iff hw e).mp he
        exact ⟨v, rfl⟩
    · exact ⟨by simp, by simp, fun _ => ne_ok_of_head (.inl rfl), by simp⟩
  · obtain ⟨rest, htext⟩ := hlabelled
    rw [← htext]
    exact ⟨by simp, by simp, fun _ => ne_ok_of_head (.inr rfl), .inr ⟨rest, rfl⟩⟩

/-- Two strings, one with an escaped dollar sign behind two backslashes, one with a dollar sign behind
two backslashes that are a pair. -/
def sampleStrings : Text := "f(\"\\\\\\$a\", \"\\\\$a\");"

/-- The first of these is an argument and the second is none. -/
theorem literal_exact_dollars : ∃ l, tokenize sampleStrings = .ok l ∧
    (∃ x ∈ l.tokens, x.text = "\"\\\\\\$a\"" ∧ ∃ v, parse x.text = .ok ⟨none, [.literal v]⟩) ∧
      ∃ x ∈ l.tokens, x.text = "\"\\\\$a\"" ∧ ∀ e, parse x.text ≠ .ok e := by
  have h : (tokenize sampleStrings).toOption.any (fun l =>
      l.tokens[2]?.any (fun x : Token => x.kind = .string ∧ x.text = "\"\\\\\\$a\"".toList) ∧
        l.tokens[4]?.any (fun x : Token => x.kind = .string ∧ x.text = "\"\\\\$a\"".toList)) = true := by
    decide +kernel
  cases hl : tokenize sampleStrings with
  | error e =>
    rw [hl] at h
    cases h
  | ok l =>
    rw [hl] at h
    obtain ⟨hfirst, hsecond⟩ := of_decide_eq_true h
    obtain ⟨x, hx, hxtext⟩ := (Option.any_eq_true _ _).mp hfirst
    obtain ⟨y, hy, hytext⟩ := (Option.any_eq_true _ _).mp hsecond
    obtain ⟨hxkind, hxtext⟩ := of_decide_eq_true hxtext
    obtain ⟨hykind, hytext⟩ := of_decide_eq_true hytext
    have hxmem := Array.mem_iff_getElem?.mpr ⟨2, hx⟩
    have hymem := Array.mem_iff_getElem?.mpr ⟨4, hy⟩
    obtain ⟨hread, hform⟩ := (literal_exact hl hxmem hxkind).2.1 (by rw [hxtext]; rfl)
    obtain ⟨hread', -⟩ := (literal_exact hl hymem hykind).2.1 (by rw [hytext]; rfl)
    obtain ⟨e, he⟩ := hread.mpr (by rw [hxtext]; decide)
    obtain ⟨v, rfl⟩ := hform e he
    refine ⟨l, rfl, ⟨x, hxmem, hxtext, v, he⟩, y, hymem, hytext, fun e' he' => ?_⟩
    have hdollars := hread'.mp ⟨e', he'⟩
    rw [hytext] at hdollars
    exact absurd hdollars (by decide)

end Crosslink.Source
