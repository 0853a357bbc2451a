import Crosslink.Proofs.Arguments
import Crosslink.Proofs.Places

/-!
# Stretches of tokens

The tokens of a stretch of one source are found again in another, some places and some bytes on.
What is read of tokens that stand in the stretch alone is then read there, too, as many places and
bytes on.

* §1 Attributes moved on.
* §2 `Copied`, a stretch found again, and what is told of its tokens.
* §3 The lists and the groups of attributes that stand in it.
* §4 The stretches of two sources of which one has some pieces more.
-/

namespace Crosslink.Source

/-! ## §1 Attributes moved on -/

def Argument.shift (w : Nat) (a : Argument) : Argument := ⟨a.span.shift w, a.text⟩

def Attribute.shift (w : Nat) (a : Attribute) : Attribute :=
  ⟨a.name, a.nameSpan.shift w, a.span.shift w, a.arguments.map (Argument.shift w)⟩

/-- A group moved on by `d` tokens and `w` bytes. -/
def AttributeGroup.shift (d w : Nat) (g : AttributeGroup) : AttributeGroup :=
  ⟨g.span.shift w, g.attributes.map (Attribute.shift w), g.next + d⟩

@[simp] theorem span_shift_zero (s : Span) : s.shift 0 = s := rfl

@[simp] theorem argument_shift_zero (a : Argument) : a.shift 0 = a := rfl

@[simp] theorem attribute_shift_zero (a : Attribute) : a.shift 0 = a := by
  have hid : Argument.shift 0 = id := rfl
  cases a
  simp [Attribute.shift, hid]

@[simp] theorem group_shift_zero (g : AttributeGroup) : g.shift 0 0 = g := by
  have hid : Attribute.shift 0 = id := funext attribute_shift_zero
  cases g
  simp [AttributeGroup.shift, hid]

namespace TokenSequence

/-! ## §2 Stretches found again -/

/-- The tokens from the index `x` up to before `y` are found again `d` places and `w` bytes on, and
`f` says where their partners are. -/
structure Copied (f : Nat → Nat) (x y d w : Nat) (s s' : Text) (l l' : TokenSequence) : Prop where
  size : y ≤ l.tokens.size
  token : ∀ i, x ≤ i → i < y →
    l'.tokens[i + d]? = l.tokens[i]?.map (Token.carried f (fun _ => Span.shift w) i)
  inside : ∀ q, x ≤ q → q < y → f q = q + d
  below : ∀ q, q < x → f q < x + d
  above : ∀ q, y ≤ q → y + d ≤ f q
  text : ∀ i j, x ≤ i → i ≤ j → j < y →
    (l'.argument s' (i + d) (j + d)).text = (l.argument s i j).text

namespace Copied

variable {f : Nat → Nat} {x y d w : Nat} {s s' : Text} {l l' : TokenSequence} {i j c : Nat}
  {t : Token}

theorem kindAt (h : Copied f x y d w s s' l l') (hx : x ≤ i) (hy : i < y) :
    l'.kindAt (i + d) = l.kindAt i := by
  rw [TokenSequence.kindAt, TokenSequence.kindAt, h.token i hx hy]
  cases l.tokens[i]? <;> rfl

theorem isKind (h : Copied f x y d w s s' l l') (hx : x ≤ i) (hy : i < y) (kind : TokenKind) :
    l'.isKind (i + d) kind = l.isKind i kind := by
  rw [TokenSequence.isKind, TokenSequence.isKind, h.kindAt hx hy]

theorem partnerAt (h : Copied f x y d w s s' l l') (hx : x ≤ i) (hy : i < y) :
    l'.partnerAt (i + d) = (l.partnerAt i).map f := by
  rw [TokenSequence.partnerAt, TokenSequence.partnerAt, h.token i hx hy]
  cases l.tokens[i]? <;> rfl

theorem partnerAt_inside (h : Copied f x y d w s s' l l') (hx : x ≤ i) (hy : i < y)
    (hc : l.partnerAt i = some c) (hxc : x ≤ c) (hcy : c < y) :
    l'.partnerAt (i + d) = some (c + d) := by
  rw [h.partnerAt hx hy, hc, Option.map_some, h.inside c hxc hcy]

theorem stopAt (h : Copied f x y d w s s' l l') (hx : x ≤ i) (hy : i < y) :
    l'.stopAt (i + d) = l.stopAt i + w := by
  have hi : i < l.tokens.size := Nat.lt_of_lt_of_le hy h.size
  rw [TokenSequence.stopAt, TokenSequence.stopAt, h.token i hx hy, Array.getElem?_eq_getElem hi]
  rfl

theorem argument (h : Copied f x y d w s s' l l') (hx : x ≤ i) (hij : i ≤ j) (hy : j < y) :
    l'.argument s' (i + d) (j + d) = (l.argument s i j).shift w := by
  have htext := h.text i j hx hij hy
  have hi : i < l.tokens.size := by have := h.size; omega
  have hspan : (l'.argument s' (i + d) (j + d)).span = (l.argument s i j).span.shift w := by
    simp only [TokenSequence.argument, h.stopAt (Nat.le_trans hx hij) hy,
      h.token i hx (Nat.lt_of_le_of_lt hij hy), Array.getElem?_eq_getElem hi]
    rfl
  calc l'.argument s' (i + d) (j + d)
      = ⟨(l'.argument s' (i + d) (j + d)).span, (l'.argument s' (i + d) (j + d)).text⟩ := rfl
    _ = (l.argument s i j).shift w := by rw [htext, hspan]; rfl

/-- What begins in the stretch and ends in it ends at the same token. -/
theorem lastOf (h : Copied f x y d w s s' l l') (hx : x ≤ i) (hy : l.lastOf i < y) :
    l'.lastOf (i + d) = l.lastOf i + d := by
  have hi : i < y := Nat.lt_of_le_of_lt (l.le_lastOf i) hy
  have hpartner := h.partnerAt hx hi
  unfold TokenSequence.lastOf at hy ⊢
  rw [hpartner]
  cases hq : l.partnerAt i with
  | none => rfl
  | some q =>
    rw [hq] at hy
    dsimp only [Option.map_some] at hy ⊢
    by_cases hiq : i < q
    · rw [if_pos hiq] at hy ⊢
      rw [h.inside q (by omega) hy, if_pos (by omega)]
    · have hle : f q ≤ i + d := by
        by_cases hqx : q < x
        · have := h.below q hqx
          omega
        · rw [h.inside q (by omega) (by omega)]
          omega
      rw [if_neg hiq, if_neg (by omega)]

theorem findKind (h : Copied f x y d w s s' l l') {kinds : List TokenKind} {stop stop' : Nat}
    (hx : x ≤ i) (hfind : l.findKind kinds stop i = some j) (hy : j < y) (hstop : j + d < stop') :
    l'.findKind kinds stop' (i + d) = some (j + d) := by
  fun_induction TokenSequence.findKind l kinds stop i with
  | case1 i hi hk =>
    obtain rfl := Option.some.inj hfind
    rw [TokenSequence.findKind, if_pos hstop, h.kindAt hx hy, if_pos hk]
  | case2 i hi hk ih =>
    have hlt := (le_of_findKind hfind).1
    have hrest := ih (by omega) hfind
    rw [TokenSequence.findKind, if_pos (by omega), h.kindAt hx (by omega), if_neg hk,
      Nat.add_right_comm, hrest]
  | case3 i hi => cases hfind

theorem findKind_eq_none (h : Copied f x y d w s s' l l') {kinds : List TokenKind} {stop : Nat}
    (hx : x ≤ i) (hfind : l.findKind kinds stop i = none) (hy : stop ≤ y) :
    l'.findKind kinds (stop + d) (i + d) = none := by
  fun_induction TokenSequence.findKind l kinds stop i with
  | case1 i hi hk => cases hfind
  | case2 i hi hk ih =>
    have hrest := ih (by omega) hfind
    rw [TokenSequence.findKind, if_pos (by omega), h.kindAt hx (by omega), if_neg hk,
      Nat.add_right_comm, hrest]
  | case3 i hi => rw [TokenSequence.findKind, if_neg (by omega)]

/-! ## §3 Lists and groups -/

end Copied

theorem Nested.nextComma_le {l : TokenSequence} (hn : l.Nested) {o c i : Nat} (hc : l.partnerAt o = some c)
    (ho : o < i) (hi : i ≤ c) : AttributeGroup.nextComma l c i ≤ c := by
  fun_induction AttributeGroup.nextComma l c i with
  | case1 i h ih =>
    simp only [Bool.and_eq_true, decide_eq_true_eq] at h
    have := hn.lastOf_lt hc ho h.1
    have := l.le_lastOf i
    exact ih (by omega) (by omega)
  | case2 i h => exact hi

theorem Nested.attributeAt_le {l : TokenSequence} (hn : l.Nested) (s : Text) {o c i : Nat} {t : Token}
    (hc : l.partnerAt o = some c) (ho : o < i) (hi : i < c) :
    (AttributeGroup.attributeAt l s i t).2 ≤ c := by
  unfold AttributeGroup.attributeAt
  split
  · rename_i hopen
    have hlt : i + 1 < c := by
      refine Nat.lt_of_le_of_ne hi fun heq => ?_
      rw [heq, hn.isKind_last hc (by omega) rfl] at hopen
      cases hopen
    dsimp only
    split
    · rename_i q hq
      have := (hn.between hc (by omega) hlt hq).2
      dsimp only
      omega
    · exact hi
  · exact hi

namespace Copied

variable {f : Nat → Nat} {x y d w : Nat} {s s' : Text} {l l' : TokenSequence} {i j c : Nat}
  {t : Token}

/-- The arguments read on a walk that stays in the stretch. -/
theorem argumentsFrom (h : Copied f x y d w s s' l l') (hn : l.Nested) {o : Nat}
    (hc : l.partnerAt o = some c) (ho : o < i) (hic : i ≤ c) (hx : x ≤ i) (hy : c ≤ y)
    (open? : Option (Nat × Nat)) (hopen : ∀ r ∈ open?, x ≤ r.1 ∧ r.1 ≤ r.2 ∧ r.2 < i) :
    l'.argumentsFrom s' (c + d) (open?.map fun r => (r.1 + d, r.2 + d)) (i + d) =
      (l.argumentsFrom s c open? i).map (Argument.shift w) := by
  have hfinished : ∀ open? : Option (Nat × Nat), (∀ r ∈ open?, x ≤ r.1 ∧ r.1 ≤ r.2 ∧ r.2 < y) →
      (((open?.map fun r => (r.1 + d, r.2 + d)).map fun r => l'.argument s' r.1 r.2).toList) =
        (((open?.map fun r => l.argument s r.1 r.2).toList).map (Argument.shift w)) := by
    intro open? hr
    cases open? with
    | none => rfl
    | some r =>
      obtain ⟨h₁, h₂, h₃⟩ := hr r rfl
      simp [h.argument h₁ h₂ h₃]
  fun_induction TokenSequence.argumentsFrom l s c open? i with
  | case1 open? i finished hi hcomma ih =>
    rw [TokenSequence.argumentsFrom, if_pos (by omega), h.isKind hx (by omega), if_pos hcomma,
      List.map_append]
    congr 1
    · exact hfinished _ fun r hr => by
        obtain ⟨h₁, h₂, h₃⟩ := hopen r hr
        exact ⟨h₁, h₂, by omega⟩
    · rw [Nat.add_right_comm]
      exact ih (by omega) (by omega) (by omega) (by simp)
  | case2 open? i hi hcomma last ih =>
    have hlt : last < c := hn.lastOf_lt hc ho hi
    have hle : i ≤ last := l.le_lastOf i
    rw [TokenSequence.argumentsFrom, if_pos (by omega), h.isKind hx (by omega), if_neg hcomma]
    dsimp only
    rw [h.lastOf hx (by omega), Nat.add_right_comm]
    have hrest := ih (by omega) (by omega) (by omega) fun r hr => by
      obtain rfl := Option.some.inj hr
      cases open? with
      | none => exact ⟨hx, hle, Nat.lt_succ_self _⟩
      | some r =>
        obtain ⟨h₁, h₂, h₃⟩ := hopen r rfl
        exact ⟨h₁, by simp only [Option.map_some, Option.getD_some]; omega, Nat.lt_succ_self _⟩
    rw [← hrest]
    cases open? <;> rfl
  | case3 open? i finished hi =>
    rw [TokenSequence.argumentsFrom, if_neg (by omega)]
    exact hfinished _ fun r hr => by
      obtain ⟨h₁, h₂, h₃⟩ := hopen r hr
      exact ⟨h₁, h₂, by omega⟩

/-- The arguments of a list that stands in the stretch. -/
theorem arguments (h : Copied f x y d w s s' l l') (hn : l.Nested) {o : Nat}
    (ho : l.kindAt o = some .openParen) (hx : x ≤ o) (hc : ∀ c, l.partnerAt o = some c → c < y)
    (hy : o < y) :
    l'.arguments s' (o + d) = (l.arguments s o).map (Argument.shift w) := by
  unfold TokenSequence.arguments
  cases hp : l.partnerAt o with
  | none =>
    rw [h.partnerAt hx hy, hp]
    rfl
  | some c =>
    have hcy := hc c hp
    obtain ⟨t, ht, htc⟩ := partnerAt_eq_some.mp hp
    have hopens : t.kind.opens = true := by
      rw [TokenSequence.kindAt, ht] at ho
      rw [Option.some.inj ho]
      rfl
    have hoc := hn.lt_partner ht hopens htc
    rw [h.partnerAt_inside hx hy hp (by omega) hcy]
    dsimp only
    rw [Nat.add_right_comm]
    exact h.argumentsFrom hn hp (Nat.lt_succ_self o) hoc (by omega) (by omega) none (by simp)

theorem nextComma (h : Copied f x y d w s s' l l') (hx : x ≤ i)
    (hle : AttributeGroup.nextComma l c i ≤ y)
    (hcomma : AttributeGroup.nextComma l c i < c → AttributeGroup.nextComma l c i < y) :
    AttributeGroup.nextComma l' (c + d) (i + d) = AttributeGroup.nextComma l c i + d := by
  fun_induction AttributeGroup.nextComma l c i with
  | case1 i hi ih =>
    simp only [Bool.and_eq_true, decide_eq_true_eq] at hi
    have hgoes := AttributeGroup.le_nextComma l c (l.lastOf i + 1)
    have := l.le_lastOf i
    rw [AttributeGroup.nextComma, if_pos, h.lastOf hx (by omega), Nat.add_right_comm]
    · exact ih (by omega) hle hcomma
    · rw [h.isKind hx (by omega)]
      simpa using hi
  | case2 i hi =>
    simp only [Bool.and_eq_true, decide_eq_true_eq] at hi
    rw [AttributeGroup.nextComma, if_neg]
    simp only [Bool.and_eq_true, decide_eq_true_eq]
    intro hlt
    have hic : i < c := by omega
    rw [h.isKind hx (hcomma hic)] at hlt
    exact hi ⟨hic, hlt.2⟩

/-- What is read at the name of an attribute, if its list stands in the stretch, or if it has none and none
comes after the stretch. The name may be another that ends as many bytes on. -/
theorem attributeAt_named (h : Copied f x y d w s s' l l') (hn : l.Nested) {t' : Token} (hx : x ≤ i + 1)
    (hy : (AttributeGroup.attributeAt l s i t).2 ≤ y)
    (hlist : i + 1 < y ∨ l.isKind (i + 1) .openParen = false ∧ l'.isKind (i + 1 + d) .openParen = false)
    (hstop : t'.span.stop = t.span.stop + w) :
    AttributeGroup.attributeAt l' s' (i + d) t' =
      (⟨t'.text, t'.span, ⟨t'.span.start, (AttributeGroup.attributeAt l s i t).1.span.stop + w⟩,
        (AttributeGroup.attributeAt l s i t).1.arguments.map (Argument.shift w)⟩,
      (AttributeGroup.attributeAt l s i t).2 + d) := by
  have hkind : l'.isKind (i + 1 + d) .openParen = l.isKind (i + 1) .openParen := by
    obtain hlt | ⟨hnone, hnone'⟩ := hlist
    · exact h.isKind hx hlt .openParen
    · rw [hnone, hnone']
  unfold AttributeGroup.attributeAt at hy ⊢
  rw [Nat.add_right_comm i d 1, hkind]
  by_cases hopen : l.isKind (i + 1) .openParen = true
  · have hlt : i + 1 < y := hlist.resolve_right fun hnone => by simp [hnone.1] at hopen
    rw [if_pos hopen] at hy ⊢
    rw [if_pos hopen]
    have hkindAt : l.kindAt (i + 1) = some .openParen := of_decide_eq_true hopen
    cases hq : l.partnerAt (i + 1) with
    | none =>
      rw [hq] at hy
      dsimp only at hy ⊢
      have harguments := h.arguments hn hkindAt hx (by rw [hq]; simp) hlt
      rw [h.partnerAt hx hlt, hq, harguments, ← hstop, Nat.add_right_comm]
      rfl
    | some q =>
      rw [hq] at hy
      dsimp only at hy ⊢
      have harguments := h.arguments hn hkindAt hx
        (fun p hp => by obtain rfl := Option.some.inj (hq.symm.trans hp); omega) (by omega)
      obtain ⟨v, hv, hvq⟩ := partnerAt_eq_some.mp hq
      have hopens : v.kind.opens = true := by
        rw [TokenSequence.kindAt, hv] at hkindAt
        rw [Option.some.inj hkindAt]
        rfl
      have hiq := hn.lt_partner hv hopens hvq
      rw [h.partnerAt_inside hx (by omega) hq (by omega) (by omega), harguments]
      dsimp only
      rw [h.stopAt (by omega) (by omega)]
      refine Prod.ext rfl ?_
      dsimp only
      omega
  · rw [if_neg hopen, if_neg hopen, ← hstop, Nat.add_right_comm]
    rfl

theorem attributeAt (h : Copied f x y d w s s' l l') (hn : l.Nested) (hx : x ≤ i)
    (hy : (AttributeGroup.attributeAt l s i t).2 < y) :
    AttributeGroup.attributeAt l' s' (i + d) (t.carried f (fun _ => Span.shift w) i) =
      ((AttributeGroup.attributeAt l s i t).1.shift w,
        (AttributeGroup.attributeAt l s i t).2 + d) := by
  have hnext := AttributeGroup.lt_attributeAt l s i t
  rw [h.attributeAt_named hn (Nat.le_succ_of_le hx) hy.le (.inl (by omega)) rfl]
  unfold AttributeGroup.attributeAt
  split
  · dsimp only
    split <;> rfl
  · rfl

theorem attributesFrom (h : Copied f x y d w s s' l l') (hn : l.Nested) {o : Nat}
    (hc : l.partnerAt o = some c) (ho : o < i) (hx : x ≤ i) (hy : c < y) :
    AttributeGroup.attributesFrom l' s' (c + d) (i + d) =
      (AttributeGroup.attributesFrom l s c i).map (Attribute.shift w) := by
  fun_induction AttributeGroup.attributesFrom l s c i with
  | case1 i hi htok =>
    rw [AttributeGroup.attributesFrom, if_pos (by omega), h.token i hx (by omega), htok]
    rfl
  | case2 i hi t ht hname r ih =>
    have hlt : i < r.2 := AttributeGroup.lt_attributeAt l s i t
    have hle := AttributeGroup.le_nextComma l c r.2
    have hr : (AttributeGroup.attributeAt l s i t).2 = r.2 := rfl
    rw [AttributeGroup.attributesFrom, if_pos (by omega), h.token i hx (by omega), ht]
    rw [Option.map_some]
    dsimp only
    have hrc : r.2 ≤ c := hn.attributeAt_le s hc ho hi
    have hle' := hn.nextComma_le hc (by omega) hrc
    rw [if_pos (show (t.carried f (fun _ => Span.shift w) i).kind = .name from hname),
      h.attributeAt hn hx (by omega)]
    dsimp only
    rw [hr, h.nextComma (by omega) (by omega) (by omega), List.map_cons, Nat.add_right_comm]
    exact congrArg _ (ih (by omega) (by omega))
  | case3 i hi t ht hname ih =>
    rw [AttributeGroup.attributesFrom, if_pos (by omega), h.token i hx (by omega), ht]
    rw [Option.map_some]
    dsimp only
    rw [if_neg (show (t.carried f (fun _ => Span.shift w) i).kind ≠ .name from hname),
      Nat.add_right_comm]
    exact ih (by omega) (by omega)
  | case4 i hi => rw [AttributeGroup.attributesFrom, if_neg (by omega), List.map_nil]

/-- A group that stands in the stretch is read again. -/
theorem parse (h : Copied f x y d w s s' l l') (hn : l.Nested) {o : Nat} {g : AttributeGroup}
    (hg : AttributeGroup.parse l s o = some g) (hx : x ≤ o) (hy : g.next ≤ y) :
    AttributeGroup.parse l' s' (o + d) = some (g.shift d w) := by
  obtain ⟨c, hat⟩ := exists_groupAt hn hg
  have hnext := hat.next
  have hlt := hat.lt
  obtain ⟨t, ht, htc⟩ := partnerAt_eq_some.mp hat.partner
  have hkind : t.kind = .attrOpen := by
    have := hat.kind
    rw [TokenSequence.kindAt, ht] at this
    exact Option.some.inj this
  unfold AttributeGroup.parse at hg ⊢
  rw [ht] at hg
  rw [h.token o hx (by omega), ht]
  simp only [Option.map_some, Option.bind_eq_bind, Option.bind_some, hkind, ne_eq,
    not_true_eq_false, if_false, htc, Option.some.injEq, Token.carried] at hg ⊢
  subst hg
  have hcy : c < y := by omega
  have hattributes := h.attributesFrom (i := o + 1) hn hat.partner (by omega) (by omega) hcy
  rw [Nat.add_right_comm] at hattributes
  rw [h.inside c (by omega) hcy, h.stopAt (by omega) hcy, hattributes]
  simp [AttributeGroup.shift, Span.shift, Nat.add_right_comm]

end Copied

end TokenSequence

/-! ## §4 Two sources of which one has some pieces more -/

namespace TokenSequence

/-- Two sources have the same tokens but for those from the index `x` up to before `y` of the first, in
whose place the second has `d` tokens and `w` bytes more. -/
structure Around (f : Nat → Nat) (x y d w : Nat) (s s' : Text) (l l' : TokenSequence) : Prop where
  nested : l.Nested
  nested' : l'.Nested
  before : Copied f 0 x 0 0 s s' l l'
  after : Copied f y l.tokens.size d w s s' l l'
  size : l'.tokens.size = l.tokens.size + d

/-- A stretch is found again where it is part of one that is. -/
theorem Copied.mono {f : Nat → Nat} {x y x' y' d w : Nat} {s s' : Text} {l l' : TokenSequence}
    (h : Copied f x y d w s s' l l') (hx : x ≤ x') (hy : y' ≤ y) (hbelow : ∀ q, q < x' → f q < x' + d)
    (habove : ∀ q, y' ≤ q → y' + d ≤ f q) : Copied f x' y' d w s s' l l' where
  size := Nat.le_trans hy h.size
  token i hi hi' := h.token i (Nat.le_trans hx hi) (Nat.lt_of_lt_of_le hi' hy)
  inside q hq hq' := h.inside q (Nat.le_trans hx hq) (Nat.lt_of_lt_of_le hq' hy)
  below := hbelow
  above := habove
  text i j hi hij hj := h.text i j (Nat.le_trans hx hi) hij (Nat.lt_of_lt_of_le hj hy)

end TokenSequence

namespace Inserted

open TokenSequence

variable {k n : Nat} {block : Array Token} {a m b : Text} {l l' : TokenSequence}

/-- What stands before the place stays where it is. -/
theorem copied_before (h : Inserted k n block a m l l') :
    Copied (lift k n) 0 k 0 0 (a ++ b) (a ++ (m ++ b)) l l' where
  size := h.le_size
  token i _ hi := by
    have := h.outside i
    rw [lift_of_lt hi] at this
    rw [Nat.add_zero, this]
    refine congrArg (fun g => l.tokens[i]?.map g) (funext fun t => ?_)
    rw [Token.carried, move, if_pos hi]
    rfl
  inside q _ hq := by rw [lift_of_lt hq, Nat.add_zero]
  below q hq := by omega
  above q hq := by rw [lift_of_le hq]; omega
  text i j _ hij hj := by
    have := h.argument_text_of_side (b := b) hij (Nat.lt_of_lt_of_le hj h.le_size) (.inl hj)
    rwa [lift_of_lt (by omega), lift_of_lt hj] at this

/-- What stands after it moves on. -/
theorem copied_after (h : Inserted k n block a m l l') :
    Copied (lift k n) k l.tokens.size n (Text.width m) (a ++ b) (a ++ (m ++ b)) l l' where
  size := Nat.le_refl _
  token i hi _ := by
    have := h.outside i
    rw [lift_of_le hi] at this
    rw [this]
    refine congrArg (fun g => l.tokens[i]?.map g) (funext fun t => ?_)
    rw [Token.carried, move, if_neg (Nat.not_lt.mpr hi)]
    rfl
  inside q hq _ := lift_of_le hq
  below q hq := by rw [lift_of_lt hq]; omega
  above q hq := by rw [lift_of_le (Nat.le_trans h.le_size hq)]; omega
  text i j hi hij hj := by
    have := h.argument_text_of_side (b := b) hij hj (.inr hi)
    rwa [lift_of_le hi, lift_of_le (by omega)] at this

/-- What stands around the place, or around a stretch that holds it. -/
theorem around {x y : Nat} (h : Inserted k n block a m l l') (hx : x ≤ k) (hy : k ≤ y) :
    Around (lift k n) x y n (Text.width m) (a ++ b) (a ++ (m ++ b)) l l' where
  nested := h.nested
  nested' := h.nested'
  before := h.copied_before.mono (Nat.le_refl 0) hx (fun q hq => by omega) fun q hq => by
    unfold lift
    split <;> omega
  after := h.copied_after.mono hy (Nat.le_refl _)
    (fun q hq => by unfold lift; split <;> omega) (h.copied_after (b := b)).above
  size := h.size

end Inserted

end Crosslink.Source
